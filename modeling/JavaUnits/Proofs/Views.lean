import JavaUnits.Proofs.Outcome
import JavaUnits.Storage.View

/-!
What is asked of a view, and what it tells.
-/

namespace JavaUnits

namespace View

variable {v : View} {p : Path}

theorem lookUp_eq_ok {found : Option Entry} : v.lookUp p = .ok found ↔
    p.hasNull = true ∧ found = none ∨ p.hasNull = false ∧ v.status p = .ok found := by
  rw [lookUp]
  cases p.hasNull with
  | true => simp [eq_comm]
  | false => simp [mapError_eq_ok]

theorem exists?_eq_ok {found : Bool} (asked : v.exists? p = .ok found) :
    found = true ↔ p.hasNull = false ∧ ∃ e, v.status p = .ok (some e) := by
  obtain ⟨e?, looked, same⟩ := bind_eq_ok.1 asked
  obtain rfl := Except.ok.inj same
  rcases lookUp_eq_ok.1 looked with ⟨null, rfl⟩ | ⟨noNull, there⟩
  · simp [null]
  · simp [noNull, there, Option.isSome_iff_exists]

theorem isDirectory_eq_ok {found : Bool} (asked : v.isDirectory p = .ok found) :
    found = true ↔ p.hasNull = false ∧ v.status p = .ok (some .directory) := by
  obtain ⟨e?, looked, same⟩ := bind_eq_ok.1 asked
  obtain rfl := Except.ok.inj same
  rcases lookUp_eq_ok.1 looked with ⟨null, rfl⟩ | ⟨noNull, there⟩
  · simp [null]
  · simp [noNull, there]

theorem isDirectory_eq_true : v.isDirectory p = .ok true ↔
    p.hasNull = false ∧ v.status p = .ok (some .directory) := by
  refine ⟨fun asked => (isDirectory_eq_ok asked).1 rfl, fun there => ?_⟩
  rw [isDirectory, lookUp_eq_ok.2 (.inr there)]
  rfl

theorem isFile_eq_true : v.isFile p = .ok true ↔
    p.hasNull = false ∧ ∃ content, v.status p = .ok (some (.file content)) := by
  constructor
  · intro asked
    obtain ⟨e?, looked, same⟩ := bind_eq_ok.1 asked
    rcases lookUp_eq_ok.1 looked with ⟨null, rfl⟩ | ⟨noNull, there⟩
    · cases same
    · rcases e? with _ | _ | content
      · cases same
      · cases same
      · exact ⟨noNull, content, there⟩
  · rintro ⟨noNull, content, there⟩
    rw [isFile, lookUp_eq_ok.2 (.inr ⟨noNull, there⟩)]
    rfl

theorem content_eq_ok {content : Bytes} :
    v.content p = .ok content ↔ p.hasNull = false ∧ v.read p = .ok content := by
  rw [View.content]
  cases p.hasNull <;> simp [mapError_eq_ok]

theorem readSource_eq_ok {text : Text} : v.readSource p = .ok text ↔
    ∃ content raw, v.content p = .ok content ∧ Text.Utf8.decodeMarked content = .ok raw ∧
      text = raw.unifyBreaks := by
  constructor
  · intro read
    obtain ⟨content, found, read⟩ := bind_eq_ok.1 read
    split at read
    · rename_i raw decoded
      exact ⟨content, raw, found, decoded, (Except.ok.inj read).symm⟩
    · cases read
  · rintro ⟨content, raw, found, decoded, rfl⟩
    rw [readSource, found, ok_bind, decoded]
    rfl

end View

end JavaUnits
