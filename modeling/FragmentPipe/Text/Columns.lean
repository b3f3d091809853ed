set_option autoImplicit false

namespace FragmentPipe.Text

def padLeft (fill : Char) (width : Nat) (text : String) : String :=
  String.ofList (List.replicate (width - text.length) fill ++ text.toList)

def hexDigits (n : Nat) : String := String.ofList (Nat.toDigits 16 n)

def hex (width : Nat) (n : Nat) : String := padLeft '0' width (hexDigits n)

def bracketed (items : List String) : String := "[" ++ ", ".intercalate items ++ "]"

end FragmentPipe.Text
