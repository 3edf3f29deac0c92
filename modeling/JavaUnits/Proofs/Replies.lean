import JavaUnits.Proofs.Encoding
import JavaUnits.Service

/-!
Replies to splits and merges. A request whose sources are answerable has a reply, and the storage
stays as it is: the result, or what it is refused with.
-/

namespace JavaUnits

open CodePoint Text

/-! ## Payloads that can be encoded -/

namespace Payload

/-- Whether the payload has no numbers, and no surrogates in its texts. -/
inductive IsScalar : Payload → Prop
  | null : IsScalar .null
  | text {s : Text} : s.IsScalar → IsScalar (.text s)
  | list {items : List Payload} : (∀ p ∈ items, IsScalar p) → IsScalar (.list items)
  | record {members : List (Text × Payload)} : (∀ member ∈ members, member.1.IsScalar) →
      (∀ member ∈ members, IsScalar member.2) → IsScalar (.record members)

variable {p : Payload}

theorem areFinite_eq_all (items : List Payload) : areFinite items = items.all isFinite := by
  induction items with
  | nil => rfl
  | cons item items ih => rw [areFinite, ih, List.all_cons]

theorem membersAreFinite_eq_all (members : List (Text × Payload)) :
    membersAreFinite members = members.all fun member => member.2.isFinite := by
  induction members with
  | nil => rfl
  | cons member members ih => rw [membersAreFinite, ih, List.all_cons]

theorem IsScalar.isFinite (scalar : p.IsScalar) : p.isFinite = true := by
  induction scalar with
  | null => rfl
  | text => rfl
  | list _ ih => rwa [Payload.isFinite, areFinite_eq_all, List.all_eq_true]
  | record _ _ ih => rwa [Payload.isFinite, membersAreFinite_eq_all, List.all_eq_true]

theorem writeItems_eq_map (style : Style) (depth : Nat) (items : List Payload) :
    writeItems style depth items = items.map (write style depth) := by
  induction items with
  | nil => rfl
  | cons item items ih => rw [writeItems, ih, List.map_cons]

theorem writeMembers_eq_map (style : Style) (depth : Nat) (members : List (Text × Payload)) :
    writeMembers style depth members = members.map fun member =>
      string style.ascii member.1 ++ style.colon ++ write style depth member.2 := by
  induction members with
  | nil => rfl
  | cons member members ih => rw [writeMembers, ih, List.map_cons]

theorem isScalar_string {s : Text} (scalar : s.IsScalar) (ascii : Bool) :
    (string ascii s).IsScalar := by
  have unit (n : Nat) : (escapeUnit n).IsScalar := by
    rw [escapeUnit, isScalar_append]
    exact ⟨isScalar_ofString _, isScalar_map_ofChar _⟩
  have each : ∀ c ∈ s, (escape ascii c).IsScalar := by
    intro c mem
    rw [escape]
    split
    · rename_i short isShort
      rw [escapeShort?] at isShort
      repeat' split at isShort
      all_goals first
        | exact Option.some.inj isShort ▸ isScalar_ofString _
        | cases isShort
    · split
      · exact unit _
      split
      · simp [scalar c mem]
      split
      · exact unit _
      · simp [unit]
  rw [string, isScalar_append]
  exact ⟨isScalar_cons.2 ⟨isSurrogate_ofChar _, isScalar_flatMap each⟩, isScalar_ofString _⟩

theorem isScalar_enclose {opening closing : CodePoint} {parts : List Text} (depth : Nat)
    (front : opening.isSurrogate = false) (back : closing.isSurrogate = false)
    (each : ∀ part ∈ parts, part.IsScalar) :
    (enclose compactStyle depth opening closing parts).IsScalar := by
  rw [enclose]
  split
  · simp [front, back]
  · have joined : (join [ofChar ','] parts).IsScalar := isScalar_join (by simp) each
    simpa [compactStyle, front, back] using joined

theorem IsScalar.write (scalar : p.IsScalar) (depth : Nat) :
    (p.write compactStyle depth).IsScalar := by
  induction scalar generalizing depth with
  | null => exact isScalar_ofString _
  | text scalar => exact isScalar_string scalar _
  | list _ ih =>
    rw [Payload.write, writeItems_eq_map]
    refine isScalar_enclose depth (by simp) (by simp) fun part mem => ?_
    obtain ⟨item, inside, rfl⟩ := List.mem_map.1 mem
    exact ih item inside _
  | record names _ ih =>
    rw [Payload.write, writeMembers_eq_map]
    refine isScalar_enclose depth (by simp) (by simp) fun part mem => ?_
    obtain ⟨member, inside, rfl⟩ := List.mem_map.1 mem
    rw [isScalar_append, isScalar_append]
    exact ⟨⟨isScalar_string (names member inside) _, isScalar_ofString ":"⟩, ih member inside _⟩

theorem isScalar_texts {ts : List Text} (each : ∀ t ∈ ts, t.IsScalar) : IsScalar (texts ts) := by
  refine .list fun p mem => ?_
  obtain ⟨t, inside, rfl⟩ := List.mem_map.1 mem
  exact .text (each t inside)

theorem isScalar_ofMembers {members : List (String × Payload)}
    (each : ∀ member ∈ members, IsScalar member.2) : IsScalar (ofMembers members) := by
  refine .record (fun member mem => ?_) fun member mem => ?_
  · obtain ⟨member, -, rfl⟩ := List.mem_map.1 mem
    exact isScalar_ofString _
  · obtain ⟨member, inside, rfl⟩ := List.mem_map.1 mem
    exact each member inside

end Payload

theorem Action.run_tryCatch {α : Type} (action : Action α) (handler : Fault → Action α)
    (s : Storage) : (tryCatch action handler).run.run s =
      match action.run.run s with
      | (.ok a, s') => (.ok a, s')
      | (.error fault, s') => (handler fault).run.run s' := by
  simp only [tryCatch, tryCatchThe, MonadExceptOf.tryCatch, ExceptT.tryCatch, ExceptT.mk,
    ExceptT.run, StateT.run, bind, StateT.bind]
  rcases action s with ⟨fault | a, s'⟩ <;> rfl

namespace Service

/-! ## Responses -/

theorem isScalar_refusalDetail {r : Refusal} (scalar : r.IsScalar) :
    (refusalDetail r).IsScalar := by
  have path : (optionalText r.path).IsScalar := by
    cases is : r.path with
    | none => exact .null
    | some p => exact .text (scalar.path p is)
  have candidates : ∀ member ∈ (r.candidates.map fun ts => ("candidates", Payload.texts ts)).toList,
      member.2.IsScalar := by
    intro member mem
    obtain ⟨ts, is, rfl⟩ := Option.map_eq_some_iff.1 (Option.mem_toList.1 mem)
    exact Payload.isScalar_texts (scalar.candidates ts is)
  refine Payload.isScalar_ofMembers fun member mem => ?_
  obtain rfl := List.mem_singleton.1 mem
  refine Payload.isScalar_ofMembers ?_
  rw [List.forall_mem_append]
  refine ⟨?_, candidates⟩
  simp only [List.forall_mem_cons, List.not_mem_nil, false_implies, implies_true, and_true]
  refine ⟨.text ?_, .text scalar.message, path⟩
  cases r.kind <;> exact isScalar_ofString _

theorem run_answered (action : Action Payload) (s : Storage) :
    (answered action).run.run s =
      match action.run.run s with
      | (.ok p, s') => (.ok (.reply 200 p), s')
      | (.error fault, s') =>
        match fault.refusal? with
        | some r => (.ok (.reply r.kind.status (refusalDetail r)), s')
        | none => (.error fault, s') := by
  rw [answered, Action.run_tryCatch, Action.run_bind]
  rcases action.run.run s with ⟨fault | p, s'⟩
  · cases refused : fault.refusal? <;> simp only [refused] <;> rfl
  · rfl

theorem run_answered_of_ok {action : Action Payload} {s s' : Storage} {p : Payload}
    (ran : action.run.run s = (.ok p, s')) :
    (answered action).run.run s = (.ok (.reply 200 p), s') := by
  rw [run_answered, ran]

theorem run_answered_of_refused {action : Action Payload} {s s' : Storage} {fault : Fault}
    {r : Refusal} (failed : action.run.run s = (.error fault, s'))
    (refused : fault.refusal? = some r) :
    (answered action).run.run s = (.ok (.reply r.kind.status (refusalDetail r)), s') := by
  rw [run_answered, failed]
  simp only [refused]

theorem run_encoded {response : Response} (scalar : response.body.IsScalar) (s : Storage) :
    (encoded response).run.run s = (.ok response, s) := by
  have written : Utf8.encode response.body.compact = .ok _ :=
    Utf8.encode_of_isScalar (scalar.write 0)
  rw [encoded, scalar.isFinite, written]
  rfl

/-! ## Routes -/

/-- Whether the call is a request on the route with a body that can be read. -/
structure Call.Posts (call : Call) (route : Route) (p : Payload) : Prop where
  url : Route.ofUrl? call.url = some route
  method : call.method.toUpper = route.method
  body : readBody call.body = .ok (some p)

variable {configured : Text} {root : Path} {s : Storage}

theorem run_answer {call : Call} {route : Route} {p : Payload} {response : Response}
    (posts : call.Posts route p) (other : route ≠ .health)
    (ran : (run configured root route (some p)).run.run s = (.ok response, s))
    (scalar : response.body.IsScalar) :
    (answer configured root call).run.run s = (.ok response, s) := by
  have reply : (run configured root route (some p) >>= encoded).run.run s = (.ok response, s) := by
    rw [Action.run_bind, ran]
    exact run_encoded scalar s
  rw [answer, posts.url]
  simp only [posts.method, bne_self_eq_false, Bool.false_eq_true, if_false, other, posts.body]
  exact reply

def splitBody (parts : SplitFiles) : Payload :=
  Payload.ofMembers [
    ("files", .record (parts.files.map fun (name, s) => (name, .text s))),
    ("type_names", Payload.texts parts.typeNames)]

def mergeBody (m : Merged) : Payload :=
  Payload.ofMembers [
    ("code", .text m.content), ("main_class_name", .text m.mainClassName),
    ("imports", Payload.texts m.imports), ("other_class_names", Payload.texts m.otherClassNames),
    ("demoted_entry_points", Payload.texts m.demotedEntryPoints)]

/-- What a response tells of a computation: its result, or the refusal of what it fails with. -/
inductive Tells {ε α : Type} (refusal? : ε → Option Refusal) (body : α → Payload) :
    Except ε α → Response → Prop
  | result (a : α) : Tells refusal? body (.ok a) (.reply 200 (body a))
  | refusal {e : ε} {r : Refusal} : refusal? e = some r →
      Tells refusal? body (.error e) (.reply r.kind.status (refusalDetail r))

/-- The file name of a request whose file type is not supported. -/
def unsupported? (r : Request.SplitRequest) : Option Text :=
  r.filename.filter fun name => !name.isEmpty && (Language.ofFileName? (some name)).isNone

theorem isScalar_splitBody {source : Text} (answerable : source.IsAnswerable) {parts : SplitFiles}
    (ran : split source = .ok parts) : (splitBody parts).IsScalar := by
  obtain ⟨files, names⟩ := SplitFiles.isScalar_of_split answerable ran
  refine Payload.isScalar_ofMembers ?_
  simp only [List.forall_mem_cons, List.not_mem_nil, false_implies, implies_true, and_true]
  refine ⟨.record (fun member mem => ?_) fun member mem => ?_, Payload.isScalar_texts names⟩
  · obtain ⟨file, inside, rfl⟩ := List.mem_map.1 mem
    exact (files file inside).1
  · obtain ⟨file, inside, rfl⟩ := List.mem_map.1 mem
    exact .text (files file inside).2

theorem isScalar_mergeBody {sources : Files} {asked : Option Text}
    (answerable : ∀ file ∈ sources, file.2.IsAnswerable) {m : Merged}
    (ran : merge sources asked configured = .ok m) : (mergeBody m).IsScalar := by
  obtain ⟨content, main, imports, others, demoted⟩ := Merge.isScalar_of_merge
    (fun file mem => (answerable file mem).scalar) (fun file mem => (answerable file mem).hides) ran
  refine Payload.isScalar_ofMembers ?_
  simp only [List.forall_mem_cons, List.not_mem_nil, false_implies, implies_true, and_true]
  exact ⟨.text content, .text main, Payload.isScalar_texts imports, Payload.isScalar_texts others,
    Payload.isScalar_texts demoted⟩

theorem splitRoute_eq (r : Request.SplitRequest) : splitRoute r =
    match unsupported? r with
    | some name =>
      pure (.reply 400 (detail (.text (Text.ofString "Unsupported file type: " ++ name))))
    | none => answered do
      match split r.code with
      | .error e => throw (.unit e)
      | .ok parts => return splitBody parts := by
  obtain ⟨code, filename⟩ := r
  rw [splitRoute, unsupported?]
  rcases filename with _ | _ | ⟨c, name⟩
  · rfl
  · rfl
  · by_cases unknown : (Language.ofFileName? (some (c :: name))).isNone = true
    · simp [unknown, Option.filter]
    · simp only [unknown, Option.filter, List.isEmpty_cons, Bool.not_false, Bool.true_and]
      rfl

theorem run_splitRoute {r : Request.SplitRequest} (answerable : r.code.IsAnswerable)
    (named : ∀ name ∈ r.filename, name.IsScalar) (s : Storage) :
    ∃ response, (splitRoute r).run.run s = (.ok response, s) ∧ response.body.IsScalar ∧
      match unsupported? r with
      | some name => response
          = .reply 400 (detail (.text (Text.ofString "Unsupported file type: " ++ name)))
      | none => Tells UnitError.refusal? splitBody (split r.code) response := by
  rw [splitRoute_eq]
  cases type : unsupported? r with
  | some name =>
    have scalar := named name (Option.filter_eq_some_iff.1 type).1
    refine ⟨_, rfl, Payload.isScalar_ofMembers ?_, rfl⟩
    simp only [List.forall_mem_singleton]
    exact .text (isScalar_append.2 ⟨isScalar_ofString _, scalar⟩)
  | none =>
    cases parts : split r.code with
    | ok parts' => exact ⟨_, run_answered_of_ok rfl, isScalar_splitBody answerable parts, .result _⟩
    | error e =>
      obtain ⟨refusal, refused, scalar⟩ := refusal_of_split answerable parts
      exact ⟨_, run_answered_of_refused rfl refused, isScalar_refusalDetail scalar,
        .refusal refused⟩

theorem run_mergeRoute {r : Request.MergeRequest} (paths : ∀ file ∈ r.files, file.1.IsScalar)
    (answerable : ∀ file ∈ r.files, file.2.IsAnswerable) (configured : Text) (s : Storage) :
    ∃ response, (mergeRoute configured r).run.run s = (.ok response, s) ∧ response.body.IsScalar ∧
      Tells MergeError.refusal? mergeBody (merge r.files (r.policy.map Policy.name) configured)
        response := by
  rw [mergeRoute]
  cases merged : merge r.files (r.policy.map Policy.name) configured with
  | ok m => exact ⟨_, run_answered_of_ok rfl, isScalar_mergeBody answerable merged, .result m⟩
  | error e =>
    obtain ⟨refusal, refused, scalar⟩ := refusal_of_merge paths answerable merged
    exact ⟨_, run_answered_of_refused rfl refused, isScalar_refusalDetail scalar, .refusal refused⟩

/-- Splits and merges fail with refusals alone when every text is tame. A request to split or merge
answerable sources leaves the storage as it is and has a reply: the result, or the refusal with its
status. -/
theorem answer_tells (source : Text) (sources : Files) (asked : Option Text) (configured : Text)
    (root : Path) (s : Storage) (call : Call) :
    (Escape.IsTame source.unifyBreaks → ∀ e, split source = .error e →
      ∃ r, e.refusal? = some r) ∧
    ((∀ file ∈ sources, Escape.IsTame file.2.unifyBreaks) →
      ∀ e, merge sources asked configured = .error e → ∃ r, e.refusal? = some r) ∧
    (∀ (p : Payload) (r : Request.SplitRequest), call.Posts .split p →
      Request.members (some p) >>= Request.SplitRequest.ofMembers = .ok r →
      r.code.IsAnswerable → (∀ name ∈ r.filename, name.IsScalar) →
      ∃ response, (answer configured root call).run.run s = (.ok response, s) ∧
        match unsupported? r with
        | some name => response
            = .reply 400 (detail (.text (Text.ofString "Unsupported file type: " ++ name)))
        | none => Tells UnitError.refusal? splitBody (split r.code) response) ∧
    ∀ (p : Payload) (r : Request.MergeRequest), call.Posts .merge p →
      Request.members (some p) >>= Request.MergeRequest.ofMembers = .ok r →
      (∀ file ∈ r.files, file.1.IsScalar ∧ file.2.IsAnswerable) →
      ∃ response, (answer configured root call).run.run s = (.ok response, s) ∧
        Tells MergeError.refusal? mergeBody (merge r.files (r.policy.map Policy.name) configured)
          response := by
  refine ⟨fun tame e failed => ?_, fun tame e failed => ?_,
    fun p r posts reads answerable named => ?_, fun p r posts reads answerable => ?_⟩
  · obtain ⟨lexical, -, rfl⟩ := split_eq_error tame failed
    exact ⟨_, rfl⟩
  · rcases merge_eq_error tame failed with
      rfl | rfl | ⟨-, -, lexical, rfl, -⟩ | rfl | ⟨-, -, -, rfl⟩
    all_goals exact ⟨_, rfl⟩
  · obtain ⟨response, ran, scalar, tells⟩ := run_splitRoute answerable named s
    refine ⟨response, run_answer posts (by decide) ?_ scalar, tells⟩
    rw [run, reads]
    exact ran
  · obtain ⟨response, ran, scalar, tells⟩ := run_mergeRoute
      (fun file mem => (answerable file mem).1)
      (fun file mem => (answerable file mem).2) configured s
    refine ⟨response, run_answer posts (by decide) ?_ scalar, tells⟩
    rw [run, reads]
    exact ran

/-! A literal that is not closed, and one with a code point that two escapes denote. -/

def openLiteral : Text :=
  "class A \x7b String s = \""

def pairLiteral : Text :=
  "class B \x7b String s = \"\\uD83D\\uDE00\"; public static void main(String[] a) \x7b\x7d \x7d\n"

def splitCall (source : Text) : Call :=
  ⟨"POST", "/split", .value (Payload.ofMembers [("code", .text source)])⟩

def mergeCall (sources : Files) : Call :=
  ⟨"POST", "/merge", .value (Payload.ofMembers
    [("files", .record (sources.map fun (path, source) => (path, .text source)))])⟩

/-- The literal that is not closed is refused, in a split and in a merge; the one with the escapes
is split, and merged beside the one that is refused. -/
theorem answer_tells_literals :
    (∃ e, split openLiteral = .error e ∧ ∃ r, e.refusal? = some r) ∧
    (∃ e, merge [("A.java", openLiteral), ("B.java", pairLiteral)] none "last" = .error e ∧
      ∃ r, e.refusal? = some r) ∧
    (∃ response, (answer "last" (.ofText "files") (splitCall pairLiteral)).run.run .empty
        = (.ok response, .empty) ∧
      Tells UnitError.refusal? splitBody (split pairLiteral) response) ∧
    ∃ response, (answer "last" (.ofText "files") (mergeCall [("A.java", openLiteral),
        ("B.java", pairLiteral)])).run.run .empty = (.ok response, .empty) ∧
      Tells MergeError.refusal? mergeBody
        (merge [("A.java", openLiteral), ("B.java", pairLiteral)] none "last") response := by
  let sources : Files := [("A.java", openLiteral), ("B.java", pairLiteral)]
  obtain ⟨splits, merges, answersSplit, -⟩ := answer_tells openLiteral sources none "last"
    (.ofText "files") .empty (splitCall pairLiteral)
  obtain ⟨-, -, -, answersMerge⟩ := answer_tells openLiteral sources none "last"
    (.ofText "files") .empty (mergeCall sources)
  have unsplit : split openLiteral = .error (.lexical
      (.at .unterminatedLiteral " " 1 "class A \x7b String s =")) := by
    rw [openLiteral, ofString_ofList]
    decide +kernel
  have unmerged : merge [("A.java", openLiteral), ("B.java", pairLiteral)] none "last"
      = .error (.source (.lexical (.at .unterminatedLiteral " " 1 "class A \x7b String s ="))) := by
    decide +kernel
  have answerable : ∀ file ∈ sources, file.1.IsScalar ∧ file.2.IsAnswerable := by
    show ∀ file ∈ [(_, openLiteral), (_, pairLiteral)], _
    rw [openLiteral, pairLiteral, ofString_ofList, ofString_ofList, ofString_ofList,
      ofString_ofList]
    decide +kernel
  refine ⟨⟨_, unsplit, splits (by decide +kernel) _ unsplit⟩,
    ⟨_, unmerged, merges (by decide +kernel) _ unmerged⟩, ?_, ?_⟩
  · exact answersSplit _ ⟨pairLiteral, none⟩ ⟨by decide +kernel, by decide +kernel, rfl⟩ rfl
      (answerable ("B.java", pairLiteral) (by simp [sources])).2 (by simp)
  · exact answersMerge _ ⟨sources, none⟩ ⟨by decide +kernel, by decide +kernel, rfl⟩ rfl
      answerable

/-- An escape that denotes a line feed leads a token past the last line, and a lone surrogate cannot
be encoded: neither is refused. -/
theorem answer_fails :
    (∃ e, split "\\u000aclass A \x7b\x7d" = .error e ∧ e.refusal? = none) ∧
    ∃ e s, (answer "last" (.ofText "files")
      (splitCall "import \"\\uD83D\"; class A \x7b\x7d")).run.run .empty
        = (.error (.unencodable e), s) := by
  refine ⟨⟨.lineMissing, by decide +kernel, rfl⟩, ?_⟩
  have failed : (fun _ => ()) <$> ((answer "last" (.ofText "files")
      (splitCall "import \"\\uD83D\"; class A \x7b\x7d")).run.run .empty).1
        = .error (.unencodable ⟨⟨0xD83D, by decide⟩, 29, 30⟩) := by
    decide +kernel
  exact ⟨_, _, Prod.ext (map_eq_error.1 failed) rfl⟩

end Service

end JavaUnits
