import KernelIR.Codec.Program
import KernelIR.Failure

/-!
# Files of settings

`Settings.ofFile` is what a file of settings says.  Every setting may be left out.
-/

namespace KernelIR

/-- Why a file cannot be read as text. -/
inductive FileProblem where
  | notFound
  | isDirectory
  | notUtf8

namespace FileProblem

/-- The text of a problem. -/
def message : FileProblem → String
  | .notFound => "No such file or directory (os error 2)"
  | .isDirectory => "Is a directory (os error 21)"
  | .notUtf8 => "stream did not contain valid UTF-8"

end FileProblem

/-- The text of a file. -/
def fileText (content : Except FileProblem ByteArray) : Except FileProblem String := do
  match String.fromUTF8? (← content) with
  | some text => .ok text
  | none => .error .notUtf8

namespace Settings

/-- The settings in the file at `path` with the given content. -/
def ofFile (path : String) (content : Except FileProblem ByteArray) : Except Failure Settings :=
  match fileText content with
  | .error problem => .error (.input problem.message)
  | .ok text =>
    match Codec.parse? text with
    | some settings => .ok settings
    | none => .error (.settings s!"{path}: not a record of settings")

end Settings

end KernelIR
