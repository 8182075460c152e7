namespace BoundedBuffer.Text

/-- A record of named numbers that shows some of its fields and says that there are more. -/
structure Record where
  name : String
  fields : List (String × Nat)

namespace Record

def compact (r : Record) : String :=
  let shown := r.fields.map fun (k, n) => k ++ ": " ++ toString n
  r.name ++ " \x7b " ++ ", ".intercalate (shown ++ [".."]) ++ " \x7d"

def expanded (r : Record) : String :=
  let shown := r.fields.map fun (k, n) => "    " ++ k ++ ": " ++ toString n ++ ",\n"
  r.name ++ " \x7b\n" ++ String.join shown ++ "    ..\n\x7d"

end Record

end BoundedBuffer.Text
