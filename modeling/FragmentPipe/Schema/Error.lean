import FragmentPipe.Token

set_option autoImplicit false

namespace FragmentPipe

inductive ScriptError where
  | empty
  | messageNotOpened (position : Nat) (token : Token)
  /-- A close does not match the group it would close, or a template opens inside a group. -/
  | unbalanced (position : Nat)
  /-- A length token and the opening of its sequence are not side by side. -/
  | unpaired (position : Nat)
  | notFlat (position : Nat)
  | unterminated (pending : Nat)
  | unknownType (position : Nat) (code : Nat)
deriving DecidableEq, Repr

namespace ScriptError

def message : ScriptError → String
  | .empty => "schema script is empty"
  | .messageNotOpened position token =>
    "token " ++ token.describe ++ " at script position " ++ toString position
      ++ " cannot start a message"
  | .unbalanced position => "unbalanced group at script position " ++ toString position
  | .unpaired position =>
    "sequence at script position " ++ toString position ++ " is not paired with a length token"
  | .notFlat position =>
    "simple schemas cannot contain groups (script position " ++ toString position ++ ")"
  | .unterminated pending =>
    "script ends with " ++ toString pending ++ " group(s) still open"
  | .unknownType position code =>
    "unknown token type 0x" ++ Text.hex 2 code ++ " at script position " ++ toString position

end ScriptError

end FragmentPipe
