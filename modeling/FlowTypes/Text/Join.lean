/-!
# Joined texts

Lists of texts with a separator between them, and texts between braces.
-/

namespace FlowTypes

/-- Texts with a separator between them. -/
def joinWith (separator : String) : List String → String
  | [] => ""
  | [s] => s
  | s :: ss => s ++ separator ++ joinWith separator ss

/-- A text between braces, set off by blanks. -/
def braced (inner : String) : String := " \x7b " ++ inner ++ " \x7d"

end FlowTypes
