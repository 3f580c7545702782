import Arranger.Text.Quoted

/-!
# Why a file cannot be used
-/

namespace Arranger

inductive FileError where
  | notFound (path : String)
  | occupied (path : String)
  | notDirectory (path : String)
  | isDirectory (path : String)
  | nameTooLong (path : String)
  /-- A name with U+0000 denotes no file. -/
  | nullCharacter
  deriving DecidableEq, Repr

def FileError.message : FileError → String
  | .notFound path => s!"[Errno 2] No such file or directory: {Text.quoted path}"
  | .occupied path => s!"[Errno 17] File exists: {Text.quoted path}"
  | .notDirectory path => s!"[Errno 20] Not a directory: {Text.quoted path}"
  | .isDirectory path => s!"[Errno 21] Is a directory: {Text.quoted path}"
  | .nameTooLong path => s!"[Errno 36] File name too long: {Text.quoted path}"
  | .nullCharacter => "embedded null byte"

end Arranger
