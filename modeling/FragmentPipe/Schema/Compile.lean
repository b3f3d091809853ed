import FragmentPipe.Schema.Basic
import FragmentPipe.Schema.Error

set_option autoImplicit false

namespace FragmentPipe

structure FragmentDraft where
  start : Nat
  words : Int
  depth : Nat
deriving DecidableEq, Repr

structure Layout where
  entries : Array Entry
  groups : List GroupKind
  /-- Positions of the length tokens of the open sequences, innermost first. -/
  lengths : List Nat
  draft : Option FragmentDraft
  /-- The next token that is not a close begins a fragment. -/
  boundary : Bool
deriving DecidableEq, Repr

namespace Layout

def empty : Layout := ⟨#[], [], [], none, true⟩

def previous? (l : Layout) : Option Token := l.entries.back?.map Entry.token

def finish (l : Layout) : Layout :=
  match l.draft with
  | none => l
  | some draft =>
    { l with
      entries := l.entries.modify draft.start fun e =>
        { e with extent := some ⟨draft.words + 1, l.entries.size - draft.start⟩ }
      draft := none }

def fragmentFor (offset : Int) (token : Token) (l : Layout) : Except ScriptError Layout :=
  if l.boundary && !token.isClosing then
    let words := if l.groups.isEmpty then offset + 1 else 0
    if l.groups.isEmpty && !token.opensTemplate then
      .error (.messageNotOpened l.entries.size token)
    else
      .ok { l with draft := some ⟨l.entries.size, words, l.lengths.length⟩, boundary := false }
  else .ok l

def lay (token : Token) (name : String) (startsMessage : Bool) (l : Layout) : Layout :=
  { l with
    entries := l.entries.push
      { token, name, startsMessage
        placement := l.draft.map fun draft => ⟨draft.depth, draft.words⟩
        extent := none
        sequenceEnd := none }
    draft := l.draft.map fun draft => { draft with words := draft.words + token.words } }

/-- A length token ends its fragment and must stand right before the opening of its sequence. -/
def openLength (position : Nat) (next : Option Token) (l : Layout) : Except ScriptError Layout :=
  if next.any Token.opensSequence then
    .ok { l.finish with lengths := position :: l.lengths, boundary := true }
  else .error (.unpaired position)

def openGroup (position : Nat) (previous : Option Token) (kind : GroupKind) (l : Layout) :
    Except ScriptError Layout :=
  if kind.sequence && !previous.any Token.isLength then .error (.unpaired position)
  else if kind.template && !l.groups.isEmpty then .error (.unbalanced position)
  else .ok { l with groups := kind :: l.groups }

def closeGroup (position : Nat) (kind : GroupKind) (l : Layout) : Except ScriptError Layout :=
  match l.groups with
  | [] => .error (.unbalanced position)
  | innermost :: groups =>
    if innermost ≠ kind then .error (.unbalanced position)
    else if kind.sequence then
      match l.lengths with
      | [] => .error (.unpaired position)
      | length :: lengths =>
        let l := l.finish
        .ok { l with
          entries := l.entries.modify length fun e => { e with sequenceEnd := some (position + 1) }
          groups, lengths, boundary := true }
    else if kind.template then .ok { l.finish with groups, boundary := true }
    else .ok { l with groups }

def step (offset : Int) (next : Option Token) (token : Token) (name : String) (l : Layout) :
    Except ScriptError Layout := do
  let position := l.entries.size
  let previous := l.previous?
  let startsMessage := l.boundary && !token.isClosing && l.groups.isEmpty
  let l ← l.fragmentFor offset token
  let l := l.lay token name startsMessage
  match token.role with
  | .length => l.openLength position next
  | .opening kind => l.openGroup position previous kind
  | .closing kind => l.closeGroup position kind
  | .plain => .ok l

def steps (offset : Int) : List (Token × String) → Layout → Except ScriptError Layout
  | [], l => .ok l
  | (token, name) :: rest, l => do
    steps offset rest (← l.step offset (rest.head?.map Prod.fst) token name)

end Layout

namespace Schema

def flatEntries (position : Nat) (words : Int) : List (Token × String) → List Entry
  | [] => []
  | (token, name) :: rest =>
    { token, name
      placement := some ⟨0, words⟩
      extent := none
      sequenceEnd := none
      startsMessage := position == 0 } :: flatEntries (position + 1) (words + token.words) rest

def flat (offset : Int) (script : List (Token × String)) : Schema :=
  let words := script.foldl (fun words item => words + (item.1.words : Int)) (offset + 1)
  let entries := (flatEntries 0 (offset + 1) script).toArray
  ⟨entries.modify 0 fun e => { e with extent := some ⟨words + 1, script.length⟩ }, offset⟩

def firstUnknown? (tokens : List Token) : Option (Nat × Nat) :=
  (tokens.zipIdx.find? fun item => item.1.kind?.isNone).map fun item => (item.2, item.1.code)

/-- Names by script position; missing ones are empty and surplus ones are dropped. -/
def nameTokens : List Token → List String → List (Token × String)
  | [], _ => []
  | token :: tokens, [] => (token, "") :: nameTokens tokens []
  | token :: tokens, name :: names => (token, name) :: nameTokens tokens names

def ofScript (tokens : List Token) (names : List String) (offset : Int) :
    Except ScriptError Schema :=
  if tokens.isEmpty then .error .empty
  else match firstUnknown? tokens with
    | some (position, code) => .error (.unknownType position code)
    | none =>
      let script := nameTokens tokens names
      if tokens.any Token.isStructural then do
        let l ← Layout.empty.steps offset script
        if l.groups.isEmpty then .ok ⟨l.entries, offset⟩
        else .error (.unterminated l.groups.length)
      else .ok (flat offset script)

def firstNonField? (fields : List (String × TokenKind)) : Option Nat :=
  fields.findIdx? fun field => !field.2.isField

def ofFields (fields : List (String × TokenKind)) : Except ScriptError Schema :=
  match firstNonField? fields with
  | some position => .error (.notFlat position)
  | none =>
    if fields.isEmpty then .error .empty
    else .ok (flat 0 (fields.mapIdx fun i field => (Token.build field.2 0 i, field.1)))

def rawBytes : Schema := flat 0 [(Token.build (.value .byteArray false) 0 0, "ByteArray")]

theorem length_flatEntries (position : Nat) (words : Int) (script : List (Token × String)) :
    (flatEntries position words script).length = script.length := by
  induction script generalizing position words with
  | nil => rfl
  | cons item rest ih => simp [flatEntries, ih]

theorem map_fst_nameTokens (tokens : List Token) (names : List String) :
    (nameTokens tokens names).map Prod.fst = tokens := by
  induction tokens generalizing names with
  | nil => rfl
  | cons token tokens ih => cases names <;> simp [nameTokens, ih]

theorem size_flat (offset : Int) (script : List (Token × String)) :
    (flat offset script).size = script.length := by
  simp [flat, size, length_flatEntries]

end Schema

end FragmentPipe
