import FragmentPipe.Text.Columns
import FragmentPipe.Text.Printable

set_option autoImplicit false

namespace FragmentPipe.Text

def codePointEscape (c : Char) : String := "\\u\x7b" ++ hexDigits c.toNat ++ "\x7d"

def escape (c : Char) : String :=
  match c with
  | '\x00' => "\\0"
  | '\t' => "\\t"
  | '\r' => "\\r"
  | '\n' => "\\n"
  | '"' => "\\\""
  | '\\' => "\\\\"
  | c => if isPrintable c then c.toString else codePointEscape c

def quoted (text : String) : String := "\"" ++ String.join (text.toList.map escape) ++ "\""

end FragmentPipe.Text
