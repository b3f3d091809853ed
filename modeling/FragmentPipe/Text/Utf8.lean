set_option autoImplicit false

namespace FragmentPipe.Text

def replacement : Char := '\uFFFD'

/-- What a lead byte announces: its own bits, the continuation bytes that follow, and the least and
greatest value of the first of them. Overlong forms, surrogates and values past the last character
are ruled out by these bounds. -/
structure LeadByte where
  bits : Nat
  following : Nat
  least : Nat
  greatest : Nat
deriving DecidableEq, Repr

def leadByte? (byte : Nat) : Option LeadByte :=
  if byte < 0x80 then some ⟨byte, 0, 0x80, 0xBF⟩
  else if byte < 0xC2 then none
  else if byte < 0xE0 then some ⟨byte - 0xC0, 1, 0x80, 0xBF⟩
  else if byte = 0xE0 then some ⟨0, 2, 0xA0, 0xBF⟩
  else if byte = 0xED then some ⟨0xD, 2, 0x80, 0x9F⟩
  else if byte < 0xF0 then some ⟨byte - 0xE0, 2, 0x80, 0xBF⟩
  else if byte = 0xF0 then some ⟨0, 3, 0x90, 0xBF⟩
  else if byte < 0xF4 then some ⟨byte - 0xF0, 3, 0x80, 0xBF⟩
  else if byte = 0xF4 then some ⟨4, 3, 0x80, 0x8F⟩
  else none

/-- Take `following` continuation bytes, the first of them within bounds, onto the bits so far. None
stands for a sequence that is cut short; the rest begins at the byte that cuts it. -/
def takeContinuation : Nat → Nat → Nat → Nat → List UInt8 → Option Nat × List UInt8
  | 0, _, _, bits, rest => (some bits, rest)
  | _ + 1, _, _, _, [] => (none, [])
  | following + 1, least, greatest, bits, byte :: rest =>
    if least ≤ byte.toNat && byte.toNat ≤ greatest then
      takeContinuation following 0x80 0xBF (bits * 64 + byte.toNat % 64) rest
    else (none, byte :: rest)

theorem length_takeContinuation_le (following least greatest bits : Nat) (bytes : List UInt8) :
    (takeContinuation following least greatest bits bytes).2.length ≤ bytes.length := by
  induction bytes generalizing following least greatest bits with
  | nil => cases following <;> simp [takeContinuation]
  | cons byte rest ih =>
    cases following with
    | zero => simp [takeContinuation]
    | succ following =>
      unfold takeContinuation
      split
      · have := ih following 0x80 0xBF (bits * 64 + byte.toNat % 64)
        simp only [List.length_cons]
        omega
      · simp

def decodeChars (bytes : List UInt8) : List Char :=
  match bytes with
  | [] => []
  | byte :: rest =>
    match leadByte? byte.toNat with
    | none => replacement :: decodeChars rest
    | some lead =>
      let taken := takeContinuation lead.following lead.least lead.greatest lead.bits rest
      have := length_takeContinuation_le lead.following lead.least lead.greatest lead.bits rest
      (taken.1.map Char.ofNat).getD replacement :: decodeChars taken.2
termination_by bytes.length
decreasing_by
  · simp
  · simp only [List.length_cons]
    omega

def decodeLossy (bytes : List UInt8) : String := String.ofList (decodeChars bytes)

end FragmentPipe.Text
