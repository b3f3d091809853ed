import FragmentPipe.Text.Columns

set_option autoImplicit false

namespace FragmentPipe.Text

inductive Style where
  | compact
  | pretty
deriving DecidableEq, Repr

def indent (text : String) : String :=
  String.join (text.toList.map fun c => if c = '\n' then "\n    " else c.toString)

def indentedItem (text : String) : String := "    " ++ indent text ++ ",\n"

def list (style : Style) (items : List String) : String :=
  match style with
  | .compact => bracketed items
  | .pretty =>
    if items.isEmpty then "[]" else "[\n" ++ String.join (items.map indentedItem) ++ "]"

/-- Values already written in the same style. Two dots at the end say that the record has more
fields than are shown. -/
def record (style : Style) (name : String) (fields : List (String × String)) (more : Bool) :
    String :=
  let items := fields.map fun field => field.1 ++ ": " ++ field.2
  match style with
  | .compact =>
    name ++ " \x7b " ++ ", ".intercalate (items ++ if more then [".."] else []) ++ " \x7d"
  | .pretty =>
    name ++ " \x7b\n" ++ String.join (items.map indentedItem)
      ++ (if more then "    ..\n" else "") ++ "\x7d"

end FragmentPipe.Text
