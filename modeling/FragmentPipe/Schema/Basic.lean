import FragmentPipe.Token
import FragmentPipe.Word

set_option autoImplicit false

namespace FragmentPipe

structure Placement where
  depth : Nat
  offset : Int
deriving DecidableEq, Repr

/-- The fragment that begins at a token: its words, trailer included, and its tokens. -/
structure Extent where
  words : Int
  tokens : Nat
deriving DecidableEq, Repr

structure Entry where
  token : Token
  name : String
  placement : Option Placement
  extent : Option Extent
  /-- For a length token, the position just past the close of its sequence. -/
  sequenceEnd : Option Nat
  startsMessage : Bool
deriving DecidableEq, Repr

/-- A field as the halves of a pipe address it: a slot of their stack of fragment starts, and an
unsigned distance from that start. -/
structure Locator where
  depth : Nat
  offset : Nat
deriving DecidableEq, Repr

structure Fragment where
  start : Nat
  words : Nat
  tokens : Nat
  depth : Nat
  startsMessage : Bool
deriving DecidableEq, Repr

def positionValue : Option Nat → Int
  | some position => position
  | none => -1

structure Schema where
  entries : Array Entry
  /-- Preamble words ahead of each template id. -/
  templateOffset : Int
deriving DecidableEq, Repr

namespace Entry

def depth? (e : Entry) : Option Nat := e.placement.map Placement.depth

def offset? (e : Entry) : Option Int := e.placement.map Placement.offset

def fragmentWords (e : Entry) : Int := (e.extent.map Extent.words).getD 0

def fragmentTokens (e : Entry) : Nat := (e.extent.map Extent.tokens).getD 0

/-- An offset below zero becomes its residue modulo `2 ^ 32`. -/
def locator? (e : Entry) : Option Locator :=
  e.placement.map fun place => ⟨place.depth, (place.offset % 0x100000000).toNat⟩

def wordDistance (e : Entry) : Nat := distance (e.offset?.getD (-1))

end Entry

namespace Schema

def size (s : Schema) : Nat := s.entries.size

def tokens (s : Schema) : List Token := s.entries.toList.map Entry.token

def names (s : Schema) : List String := s.entries.toList.map Entry.name

def isSimple (s : Schema) : Bool := s.entries.all fun e => !e.token.isStructural

def at? (s : Schema) (position : Int) : Option Entry :=
  match position with
  | .ofNat n => s.entries[n]?
  | .negSucc _ => none

def isMessageStart (s : Schema) (position : Int) : Bool :=
  (s.at? position).any Entry.startsMessage

def isFragmentStart (s : Schema) (position : Int) : Bool :=
  (s.at? position).any fun e => e.extent.isSome

def fragment? (s : Schema) (position : Int) : Option Fragment := do
  let entry ← s.at? position
  let extent ← entry.extent
  some ⟨position.toNat, distance extent.words, extent.tokens, entry.depth?.getD 0,
    entry.startsMessage⟩

def messageStarts (s : Schema) : List Nat :=
  (List.range s.size).filter fun i => s.isMessageStart i

def maxFragmentDepth (s : Schema) : Nat :=
  1 + s.entries.foldl (fun deepest e => max deepest (e.depth?.getD 0)) 0

def maxFragmentWords (s : Schema) : Int :=
  if s.isSimple then (s.entries[0]?.map Entry.fragmentWords).getD 0
  else s.entries.foldl (fun largest e => max largest e.fragmentWords) 0

def markerWords (s : Schema) : Int := s.templateOffset + 2

def idDistance (s : Schema) : Nat := distance s.templateOffset

def locator? (s : Schema) (position : Nat) : Option Locator :=
  s.entries[position]?.bind Entry.locator?

def messageNamed? (s : Schema) (name : String) : Option Nat :=
  s.messageStarts.find? fun start => (s.entries[start]?.map Entry.name) == some name

def messageRange? (s : Schema) (message : Int) : Option (Nat × Nat) :=
  if s.isMessageStart message then
    let start := message.toNat
    some (start, (s.messageStarts.find? (start < ·)).getD s.size)
  else none

def positionsNamed (s : Schema) (range : Nat × Nat) (name : String) : List Nat :=
  (List.range' range.1 (range.2 - range.1)).filter fun i =>
    (s.entries[i]?.map Entry.name) == some name

def positionOf? (s : Schema) (message : Int) (name : String) : Option Nat := do
  let range ← s.messageRange? message
  (s.positionsNamed range name).head?

/-- Locator of the first field or sequence length with this name inside a message. -/
def fieldLocator? (s : Schema) (message : Int) (name : String) : Option Locator := do
  let range ← s.messageRange? message
  let position ← (s.positionsNamed range name).find? fun i =>
    s.entries[i]?.any fun e => !e.token.isGroup
  s.locator? position

end Schema

end FragmentPipe
