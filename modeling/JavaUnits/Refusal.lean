import JavaUnits.Text

/-!
Refusals: the failures that a caller is meant to tell apart. Every other failure is a fault of the
storage, or of a text whose positions are not what they seem.
-/

namespace JavaUnits

inductive RefusalKind where
  | inputNotFound
  | noSourceFiles
  | noEntryPoint
  | multipleEntryPoints
  | writeFailure
  | sourceLexError
  | sourceDecodeError
  | invalidPolicy
  deriving DecidableEq

def RefusalKind.name : RefusalKind → Text
  | inputNotFound => "InputNotFound"
  | noSourceFiles => "NoSourceFiles"
  | noEntryPoint => "NoEntryPoint"
  | multipleEntryPoints => "MultipleEntryPoints"
  | writeFailure => "WriteFailure"
  | sourceLexError => "SourceLexError"
  | sourceDecodeError => "SourceDecodeError"
  | invalidPolicy => "InvalidPolicy"

structure Refusal where
  kind : RefusalKind
  message : Text
  path : Option Text := none
  /-- The files among which the choice was refused. -/
  candidates : Option (List Text) := none
  deriving DecidableEq

end JavaUnits
