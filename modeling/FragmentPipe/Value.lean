import FragmentPipe.Token
import FragmentPipe.Word

set_option autoImplicit false

namespace FragmentPipe

inductive Value where
  | word (value : Int32)
  | long (value : Int64)
  | decimal (exponent : Int32) (mantissa : Int64)
  | bytes (data : List UInt8)
deriving DecidableEq, Repr

namespace Value

def ofText (text : String) : Value := .bytes text.toUTF8.toList

def shape : Value → Shape
  | .word _ => .word
  | .long _ => .long
  | .decimal _ _ => .decimal
  | .bytes _ => .bytes

end Value

end FragmentPipe
