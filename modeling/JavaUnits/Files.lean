import JavaUnits.Text

/-!
Named texts in an order that counts. A name put in goes to the end unless it is there already, so
that files made from pairs have every name once.
-/

namespace JavaUnits

abbrev Files := List (Text × Text)

namespace Files

def names (files : Files) : List Text :=
  files.map Prod.fst

/-- Gives `name` a text; a name that is there already keeps its place. -/
def put (name text : Text) : Files → Files
  | [] => [(name, text)]
  | file :: files =>
    if file.1 = name then (name, text) :: files else file :: put name text files

theorem names_put (name text : Text) (files : Files) :
    (files.put name text).names =
      if name ∈ files.names then files.names else files.names ++ [name] := by
  induction files with
  | nil => rfl
  | cons file files ih =>
    by_cases same : file.1 = name
    · simp [put, names, same]
    · simp only [names] at ih
      by_cases taken : name ∈ files.map Prod.fst <;>
        simp_all [put, names, Ne.symm same]

def ofPairs (pairs : List (Text × Text)) : Files :=
  pairs.foldl (fun files pair => files.put pair.1 pair.2) []

theorem nodup_names_ofPairs (pairs : List (Text × Text)) : (ofPairs pairs).names.Nodup := by
  have keeps (files : Files) (h : files.names.Nodup) :
      (pairs.foldl (fun files pair => files.put pair.1 pair.2) files).names.Nodup := by
    induction pairs generalizing files with
    | nil => exact h
    | cons pair pairs ih =>
      apply ih
      rw [names_put]
      split
      · exact h
      · rename_i new
        exact List.nodup_append.2 ⟨h, by simp, by grind⟩
  exact keeps [] List.nodup_nil

end Files

end JavaUnits
