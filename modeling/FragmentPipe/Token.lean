import FragmentPipe.Text.Columns

set_option autoImplicit false

namespace FragmentPipe

/-- How a value is stored: a long in two words, a decimal as an exponent and a long, a byte string
as a relative position and a length. -/
inductive Shape where
  | word
  | long
  | decimal
  | bytes
deriving DecidableEq, Repr

def Shape.words : Shape → Nat
  | .word => 1
  | .long => 2
  | .decimal => 3
  | .bytes => 2

inductive ValueKind where
  | integerUnsigned
  | integerSigned
  | longUnsigned
  | longSigned
  | textAscii
  | textUtf8
  | decimal
  | byteArray
deriving DecidableEq, Repr

inductive TokenKind where
  | value (kind : ValueKind) (optional : Bool)
  | group
  | sequenceLength
  | dictionary
deriving DecidableEq, Repr

namespace ValueKind

def code : ValueKind → Nat
  | .integerUnsigned => 0
  | .integerSigned => 2
  | .longUnsigned => 4
  | .longSigned => 6
  | .textAscii => 8
  | .textUtf8 => 10
  | .decimal => 12
  | .byteArray => 14

def name : ValueKind → String
  | .integerUnsigned => "IntegerUnsigned"
  | .integerSigned => "IntegerSigned"
  | .longUnsigned => "LongUnsigned"
  | .longSigned => "LongSigned"
  | .textAscii => "TextAscii"
  | .textUtf8 => "TextUtf8"
  | .decimal => "Decimal"
  | .byteArray => "ByteArray"

def shape : ValueKind → Shape
  | .integerUnsigned | .integerSigned => .word
  | .longUnsigned | .longSigned => .long
  | .textAscii | .textUtf8 | .byteArray => .bytes
  | .decimal => .decimal

def ofCode? : Nat → Option ValueKind
  | 0 => some .integerUnsigned
  | 2 => some .integerSigned
  | 4 => some .longUnsigned
  | 6 => some .longSigned
  | 8 => some .textAscii
  | 10 => some .textUtf8
  | 12 => some .decimal
  | 14 => some .byteArray
  | _ => none

@[simp] theorem ofCode?_code (kind : ValueKind) : ofCode? kind.code = some kind := by
  cases kind <;> rfl

end ValueKind

namespace TokenKind

/-- An optional value has the odd code after the mandatory one. -/
def code : TokenKind → Nat
  | .value kind optional => kind.code + optional.toNat
  | .group => 16
  | .sequenceLength => 20
  | .dictionary => 24

def ofCode? (code : Nat) : Option TokenKind :=
  if code = 16 then some .group
  else if code = 20 then some .sequenceLength
  else if code = 24 then some .dictionary
  else (ValueKind.ofCode? (code - code % 2)).map (.value · (code % 2 == 1))

def name : TokenKind → String
  | .value kind optional => kind.name ++ (if optional then "Optional" else "")
  | .group => "Group"
  | .sequenceLength => "GroupLength"
  | .dictionary => "Dictionary"

def shape? : TokenKind → Option Shape
  | .value kind _ => some kind.shape
  | .sequenceLength => some .word
  | .group | .dictionary => none

def words (kind : TokenKind) : Nat := (kind.shape?.map Shape.words).getD 0

def isField : TokenKind → Bool
  | .value _ _ => true
  | .group | .sequenceLength | .dictionary => false

@[simp] theorem ofCode?_code (kind : TokenKind) : ofCode? kind.code = some kind := by
  cases kind with
  | value kind optional => cases kind <;> cases optional <;> rfl
  | group => rfl
  | sequenceLength => rfl
  | dictionary => rfl

theorem code_lt (kind : TokenKind) : kind.code < 32 := by
  cases kind with
  | value kind optional => cases kind <;> cases optional <;> decide
  | group => decide
  | sequenceLength => decide
  | dictionary => decide

end TokenKind

structure GroupKind where
  template : Bool
  sequence : Bool
deriving DecidableEq, Repr

inductive TokenRole where
  | plain
  | length
  | opening (kind : GroupKind)
  | closing (kind : GroupKind)
deriving DecidableEq, Repr

namespace TokenRole

def isLength : TokenRole → Bool
  | .length => true
  | _ => false

def isClosing : TokenRole → Bool
  | .closing _ => true
  | _ => false

def closesSequence : TokenRole → Bool
  | .closing kind => kind.sequence
  | _ => false

def opensSequence : TokenRole → Bool
  | .opening kind => kind.sequence
  | _ => false

def opensTemplate : TokenRole → Bool
  | .opening kind => kind.template
  | _ => false

end TokenRole

structure Token where
  bits : UInt32
deriving DecidableEq, Repr

namespace Token

def closeBit : Nat := 1
def templateBit : Nat := 2
def sequenceBit : Nat := 4

/-- Operator and index are cut to their fields. -/
def build (kind : TokenKind) (operator index : Nat) : Token :=
  ⟨UInt32.ofNat (0x80000000 + kind.code <<< 26 + (operator % 0x40) <<< 20 + index % 0x100000)⟩

def ofWord (word : Int32) : Token := ⟨word.toUInt32⟩

def toWord (token : Token) : Int32 := token.bits.toInt32

def code (token : Token) : Nat := token.bits.toNat >>> 26 % 0x20

def operator (token : Token) : Nat := token.bits.toNat >>> 20 % 0x40

def index (token : Token) : Nat := token.bits.toNat % 0x100000

def kind? (token : Token) : Option TokenKind := TokenKind.ofCode? token.code

def shape? (token : Token) : Option Shape := token.kind?.bind TokenKind.shape?

/-- An unknown token takes no words. -/
def words (token : Token) : Nat := (token.kind?.map TokenKind.words).getD 0

def hasClose (token : Token) : Bool := token.operator / closeBit % 2 == 1

def hasTemplate (token : Token) : Bool := token.operator / templateBit % 2 == 1

def hasSequence (token : Token) : Bool := token.operator / sequenceBit % 2 == 1

def groupKind (token : Token) : GroupKind := ⟨token.hasTemplate, token.hasSequence⟩

def isGroup (token : Token) : Bool := token.kind? == some .group

def isLength (token : Token) : Bool := token.kind? == some .sequenceLength

def role (token : Token) : TokenRole :=
  match token.kind? with
  | some .group => if token.hasClose then .closing token.groupKind else .opening token.groupKind
  | some .sequenceLength => .length
  | _ => .plain

def isStructural (token : Token) : Bool := token.isGroup || token.isLength

def isOpening (token : Token) : Bool := token.isGroup && !token.hasClose

def isClosing (token : Token) : Bool := token.isGroup && token.hasClose

def opensTemplate (token : Token) : Bool := token.isOpening && token.hasTemplate

def opensSequence (token : Token) : Bool := token.isOpening && token.hasSequence

def closesSequence (token : Token) : Bool := token.isClosing && token.hasSequence

def operatorText (token : Token) : String :=
  if token.isGroup then
    (if token.hasClose then ":Close" else ":Open")
      ++ (if token.hasTemplate then ":Templ" else "")
      ++ (if token.hasSequence then ":Seq" else "")
  else ""

def kindText (token : Token) : String :=
  match token.kind? with
  | some kind => kind.name
  | none => "Unknown(0x" ++ Text.hex 2 token.code ++ ")"

def describe (token : Token) : String :=
  token.kindText ++ token.operatorText ++ "/" ++ toString token.index

theorem toNat_bits_build (kind : TokenKind) (operator index : Nat) :
    (build kind operator index).bits.toNat =
      0x80000000 + kind.code <<< 26 + (operator % 0x40) <<< 20 + index % 0x100000 := by
  have := kind.code_lt
  unfold build
  rw [UInt32.toNat_ofNat']
  omega

@[simp] theorem code_build (kind : TokenKind) (operator index : Nat) :
    (build kind operator index).code = kind.code := by
  have := kind.code_lt
  unfold code
  rw [toNat_bits_build]
  omega

@[simp] theorem operator_build (kind : TokenKind) (operator index : Nat) :
    (build kind operator index).operator = operator % 0x40 := by
  unfold Token.operator
  rw [toNat_bits_build]
  omega

@[simp] theorem index_build (kind : TokenKind) (operator index : Nat) :
    (build kind operator index).index = index % 0x100000 := by
  unfold Token.index
  rw [toNat_bits_build]
  omega

@[simp] theorem kind?_build (kind : TokenKind) (operator index : Nat) :
    (build kind operator index).kind? = some kind := by
  simp [kind?]

@[simp] theorem toWord_ofWord (word : Int32) : (ofWord word).toWord = word := by
  simp [ofWord, toWord]

theorem isLength_eq (token : Token) : token.isLength = token.role.isLength := by
  unfold isLength role
  cases token.kind? with
  | none => rfl
  | some kind => cases kind <;> cases token.hasClose <;> rfl

theorem isClosing_eq (token : Token) : token.isClosing = token.role.isClosing := by
  unfold isClosing isGroup role
  cases token.kind? with
  | none => rfl
  | some kind => cases kind <;> cases token.hasClose <;> rfl

theorem closesSequence_eq (token : Token) :
    token.closesSequence = token.role.closesSequence := by
  unfold closesSequence isClosing isGroup role
  cases token.kind? with
  | none => rfl
  | some kind => cases kind <;> cases token.hasClose <;> rfl

theorem opensSequence_eq (token : Token) : token.opensSequence = token.role.opensSequence := by
  unfold opensSequence isOpening isGroup role
  cases token.kind? with
  | none => rfl
  | some kind => cases kind <;> cases token.hasClose <;> rfl

theorem opensTemplate_eq (token : Token) : token.opensTemplate = token.role.opensTemplate := by
  unfold opensTemplate isOpening isGroup role
  cases token.kind? with
  | none => rfl
  | some kind => cases kind <;> cases token.hasClose <;> rfl

section OfRole

variable {token : Token} {role : TokenRole}

theorem isLength_of_role (h : token.role = role) : token.isLength = role.isLength := by
  rw [isLength_eq, h]

theorem isClosing_of_role (h : token.role = role) : token.isClosing = role.isClosing := by
  rw [isClosing_eq, h]

theorem closesSequence_of_role (h : token.role = role) :
    token.closesSequence = role.closesSequence := by
  rw [closesSequence_eq, h]

theorem role_of_isLength (h : token.isLength = true) : token.role = .length := by
  rw [isLength_eq] at h
  cases hr : token.role with
  | length => rfl
  | plain | opening kind | closing kind => simp [hr, TokenRole.isLength] at h

end OfRole

theorem role_of_not_structural {token : Token} (h : token.isStructural = false) :
    token.role = .plain := by
  unfold isStructural isGroup isLength at h
  unfold role
  cases hk : token.kind? with
  | none => rfl
  | some kind => cases kind <;> simp_all

theorem isStructural_of_plain {token : Token} (h : token.role = .plain) :
    token.isStructural = false := by
  unfold role at h
  unfold isStructural isGroup isLength
  cases hk : token.kind? with
  | none => rfl
  | some kind => cases kind <;> cases hc : token.hasClose <;> simp_all

theorem words_of_shape? {token : Token} {shape : Shape} (h : token.shape? = some shape) :
    token.words = shape.words := by
  obtain ⟨kind, hkind, hshape⟩ := Option.bind_eq_some_iff.1 h
  simp [words, TokenKind.words, hkind, hshape]

theorem shape?_of_isLength {token : Token} (h : token.isLength = true) :
    token.shape? = some .word := by
  unfold isLength at h
  unfold shape?
  rw [eq_of_beq h]
  rfl

theorem words_le_three (token : Token) : token.words ≤ 3 := by
  unfold words TokenKind.words
  cases hk : token.kind? with
  | none => decide
  | some kind =>
    cases hshape : kind.shape? with
    | none => simp [hshape]
    | some shape =>
      cases shape <;> simp [hshape, Shape.words]

end Token

end FragmentPipe
