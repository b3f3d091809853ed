import FragmentPipe.Schema.Compile

set_option autoImplicit false

namespace FragmentPipe

inductive Declaration where
  | preamble (words : Int)
  | beginMessage (name : String)
  | beginGroup (name : String)
  | beginSequence (name : String)
  | endMessage
  | endGroup
  | endSequence
  | field (name : String) (kind : TokenKind)
  | token (token : Token) (name : String)
deriving DecidableEq, Repr

structure ScriptDraft where
  script : Array (Token × String)
  groups : List (Nat × String)
  preamble : Int
  nextIndex : Nat
deriving DecidableEq, Repr

namespace ScriptDraft

def empty : ScriptDraft := ⟨#[], [], 0, 0⟩

def add (d : ScriptDraft) (kind : TokenKind) (operator : Nat) (name : String) : ScriptDraft :=
  { d with
    script := d.script.push (Token.build kind operator d.nextIndex, name)
    nextIndex := d.nextIndex + 1 }

def openGroup (d : ScriptDraft) (operator : Nat) (name : String) : ScriptDraft :=
  let d := d.add .group operator name
  { d with groups := (operator, name) :: d.groups }

def closeGroup (d : ScriptDraft) : ScriptDraft :=
  let (operator, name) := d.groups.head?.getD (0, "")
  let d := d.add .group (operator + Token.closeBit) name
  { d with groups := d.groups.tail }

/-- A negative preamble counts as none. -/
def declare (d : ScriptDraft) : Declaration → ScriptDraft
  | .preamble words => { d with preamble := max words 0 }
  | .beginMessage name => d.openGroup Token.templateBit name
  | .beginGroup name => d.openGroup 0 name
  | .beginSequence name => (d.add .sequenceLength 0 name).openGroup Token.sequenceBit name
  | .endMessage | .endGroup | .endSequence => d.closeGroup
  | .field name kind => d.add kind 0 name
  | .token token name => { d with script := d.script.push (token, name) }

def build (d : ScriptDraft) : Except ScriptError Schema :=
  Schema.ofScript (d.script.toList.map Prod.fst) (d.script.toList.map Prod.snd) d.preamble

end ScriptDraft

def Schema.ofDeclarations (declarations : List Declaration) : Except ScriptError Schema :=
  (declarations.foldl ScriptDraft.declare ScriptDraft.empty).build

end FragmentPipe
