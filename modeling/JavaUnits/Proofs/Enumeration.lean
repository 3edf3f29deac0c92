import Mathlib
import JavaUnits.Proofs.LegalStorage
import JavaUnits.Proofs.StoredCycle

/-!
The sources of a directory. Listing them gives the files that the directory leads to and whose names
end as those of sources do, each once, in the order of the parts of their paths. A directory that
may not be listed is passed over in silence, and whatever else the system cannot do is a fault. The
order in which the tree came about does not count, and so a merge chooses the same file.
-/

namespace JavaUnits

open CodePoint Text

namespace Action

open Storage

/-- Whether a merge of the directory comes to the outcome, wherever it is to be delivered. -/
def ComesTo (outcome : Except Fault Merged) (configured : Text) (directory : Path)
    (asked : Option Text) (s : Storage) : Prop :=
  ∀ target, (mergeDirectory configured directory target asked).run.run s =
    match outcome with
    | .error fault => (.error fault, s)
    | .ok merged => (deliver target merged).run.run s

/-- A directory beside a file whose path comes before its contents as a text, but not part by part,
a directory with the name of a source, a hidden source, and a directory that may not be listed. -/
def scattered : Storage :=
  { entries := [(["src"], .directory), (["src", "a.java"], .file []), (["src", "a"], .directory),
      (["src", "a", "b.java"], .directory), (["src", "notes"], .file []),
      (["src", ".java"], .file []),
      (["src", "a", "b.java", "Main.java"], .file (program.flatMap Utf8.encodeCodePoint)),
      (["src", "locked"], .directory), (["src", "locked", "C.java"], .file [])]
    limits := [(["src", "locked"], { listing := some .permissionDenied })] }

/-- The same tree, grown in another order. -/
def regrown : Storage :=
  { scattered with entries := scattered.entries.reverse }

def scatteredSources : List Path :=
  ["src/.java", "src/a/b.java/Main.java", "src/a.java"].map fun path : String => Path.ofText path

def deepFile : Text × Text :=
  ("a/b.java/Main.java", program)

def scatteredFiles : Files :=
  [(".java", []), deepFile, ("a.java", [])]

theorem listSources_scattered :
    scattered.view.listSources (Path.ofText "src") sourceExtension = .ok scatteredSources :=
  Glob.filesBelow_of_perm Glob.parts_source (by decide +kernel) (by decide +kernel)
    (by decide +kernel) (by decide +kernel) (by decide +kernel)

def longName : Text :=
  List.replicate 200 (ofChar 'a')

def longSource : Text :=
  List.replicate 245 (ofChar 'N') ++ sourceExtension

/-- A directory with a long name and a source with another. -/
def lengthy : Storage :=
  { entries := [([longName], .directory), ([longName, longSource], .file [])] }

/-- A path to the directory that leads into it and back again and again. -/
def winding : Path :=
  ⟨1, (List.replicate 18 [longName, Path.parentName]).flatten ++ [longName]⟩

end Action

end JavaUnits
