import FragmentPipe.Proofs.Script.Recognised
import FragmentPipe.Schema.Declaration

set_option autoImplicit false

/-!
# What can be declared

A declaration opens a block, closes the innermost one or adds a field. The declarations that make a
schema are fields alone, or those that spell a row of messages: a tree of groups and sequences
inside each, and nothing outside. The script is read off the tree. Each close repeats the kind and
the name of its opening, and the length of a sequence stands right before it.

Two stacks have to agree on this: the one of the draft, which decides what a close carries, and the
one of the compiler, which refuses what does not match.
-/
namespace FragmentPipe

inductive Block where
  | message
  | group
  | sequence
deriving DecidableEq, Repr

namespace Block

def operator : Block → Nat
  | .message => Token.templateBit
  | .group => 0
  | .sequence => Token.sequenceBit

def kind : Block → GroupKind
  | .message => ⟨true, false⟩
  | .group => ⟨false, false⟩
  | .sequence => ⟨false, true⟩

end Block

def TokenKind.isPlain : TokenKind → Bool
  | .value _ _ | .dictionary => true
  | .group | .sequenceLength => false

structure DeclaredField where
  name : String
  kind : TokenKind
  plain : kind.isPlain = true

/-- What a declaration does to the blocks that are open, whatever it is called. -/
inductive Sign where
  | field (field : DeclaredField)
  | opens (block : Block) (name : String)
  | closes

namespace Declaration

def sign? : Declaration → Option Sign
  | .beginMessage name => some (.opens .message name)
  | .beginGroup name => some (.opens .group name)
  | .beginSequence name => some (.opens .sequence name)
  | .endMessage | .endGroup | .endSequence => some .closes
  | .field name kind =>
    if plain : kind.isPlain = true then some (.field ⟨name, kind, plain⟩) else none
  | .preamble _ | .token _ _ => none

/-- No ready-made token, and fields of plain types alone. -/
def isGuided : Declaration → Bool
  | .token _ _ => false
  | .field _ kind => kind.isPlain
  | _ => true

def isBracket : Declaration → Bool
  | .beginMessage _ | .beginGroup _ | .beginSequence _ | .endMessage | .endGroup | .endSequence =>
    true
  | .field _ _ | .preamble _ | .token _ _ => false

end Declaration

structure Line where
  kind : TokenKind
  operator : Nat
  name : String
deriving DecidableEq, Repr

namespace Line

def token (line : Line) (index : Nat) : Token := .build line.kind line.operator index

def field (f : DeclaredField) : Line := ⟨f.kind, 0, f.name⟩

def length (name : String) : Line := ⟨.sequenceLength, 0, name⟩

def opening (block : Block) (name : String) : Line := ⟨.group, block.operator, name⟩

def closing (block : Block) (name : String) : Line :=
  ⟨.group, block.operator + Token.closeBit, name⟩

end Line

/-- What is declared between the beginning and the end of a block. -/
inductive Outline where
  | done
  | field (field : DeclaredField) (rest : Outline)
  | group (name : String) (inner rest : Outline)
  | sequence (name : String) (inner rest : Outline)

namespace Outline

def signs : Outline → List Sign
  | .done => []
  | .field f rest => .field f :: rest.signs
  | .group name inner rest => .opens .group name :: (inner.signs ++ .closes :: rest.signs)
  | .sequence name inner rest => .opens .sequence name :: (inner.signs ++ .closes :: rest.signs)

def lines : Outline → List Line
  | .done => []
  | .field f rest => .field f :: rest.lines
  | .group name inner rest =>
    .opening .group name :: (inner.lines ++ .closing .group name :: rest.lines)
  | .sequence name inner rest =>
    .length name :: .opening .sequence name ::
      (inner.lines ++ .closing .sequence name :: rest.lines)

end Outline

structure DeclaredMessage where
  name : String
  outline : Outline

namespace DeclaredMessage

def signs (m : DeclaredMessage) : List Sign :=
  .opens .message m.name :: (m.outline.signs ++ [.closes])

def lines (m : DeclaredMessage) : List Line :=
  .opening .message m.name :: (m.outline.lines ++ [.closing .message m.name])

end DeclaredMessage

def numbered (index : Nat) : List Line → List (Token × String)
  | [] => []
  | line :: rest => (line.token index, line.name) :: numbered (index + 1) rest

def tokensFrom (index : Nat) (lines : List Line) : List Token := (numbered index lines).map Prod.fst

def Schema.script (s : Schema) : List (Token × String) :=
  s.entries.toList.map fun e => (e.token, e.name)

section Numbering

theorem numbered_append (index : Nat) (front back : List Line) :
    numbered index (front ++ back) =
      numbered index front ++ numbered (index + front.length) back := by
  induction front generalizing index with
  | nil => rfl
  | cons line rest ih =>
    simp only [List.cons_append, numbered, ih, List.length_cons]
    rw [show index + 1 + rest.length = index + (rest.length + 1) by omega]

theorem tokensFrom_append (index : Nat) (front back : List Line) :
    tokensFrom index (front ++ back) =
      tokensFrom index front ++ tokensFrom (index + front.length) back := by
  unfold tokensFrom
  rw [numbered_append, List.map_append]

theorem kind?_of_tokensFrom {index : Nat} {lines : List Line} {token : Token}
    (h : token ∈ tokensFrom index lines) : token.kind?.isSome = true := by
  induction lines generalizing index with
  | nil => cases h
  | cons line rest ih =>
    rcases List.mem_cons.1 h with rfl | hrest
    · simp [Line.token]
    · exact ih hrest

end Numbering

section Roles

theorem role_field (f : DeclaredField) (index : Nat) :
    ((Line.field f).token index).role = .plain := by
  obtain ⟨name, kind, plain⟩ := f
  cases kind with
  | value | dictionary => simp [Line.field, Line.token, Token.role]
  | group | sequenceLength => cases plain

theorem role_length (name : String) (index : Nat) :
    ((Line.length name).token index).role = .length := by
  simp [Line.length, Line.token, Token.role]

theorem role_opening (block : Block) (name : String) (index : Nat) :
    ((Line.opening block name).token index).role = .opening block.kind := by
  cases block <;>
    simp [Line.opening, Line.token, Token.role, Token.hasClose, Token.groupKind, Token.hasTemplate,
      Token.hasSequence, Block.operator, Block.kind, Token.closeBit, Token.templateBit,
      Token.sequenceBit]

theorem role_closing (block : Block) (name : String) (index : Nat) :
    ((Line.closing block name).token index).role = .closing block.kind := by
  cases block <;>
    simp [Line.closing, Line.token, Token.role, Token.hasClose, Token.groupKind, Token.hasTemplate,
      Token.hasSequence, Block.operator, Block.kind, Token.closeBit, Token.templateBit,
      Token.sequenceBit]

end Roles

/-- The block that the next close belongs to. With nothing open it is a group without a name. -/
def innermost (groups : List (Block × String)) : Block × String := groups.head?.getD (.group, "")

namespace Sign

def writes (groups : List (Block × String)) : Sign → List Line
  | .field f => [.field f]
  | .opens .sequence name => [.length name, .opening .sequence name]
  | .opens block name => [.opening block name]
  | .closes => [.closing (innermost groups).1 (innermost groups).2]

def leaves (groups : List (Block × String)) : Sign → List (Block × String)
  | .field _ => groups
  | .opens block name => (block, name) :: groups
  | .closes => groups.tail

def leads (groups : List (Block × String)) : Sign → TokenRole
  | .field _ => .plain
  | .opens .sequence _ => .length
  | .opens block _ => .opening block.kind
  | .closes => .closing (innermost groups).1.kind

end Sign

def written (groups : List (Block × String)) : List Sign → List Line
  | [] => []
  | sign :: rest => sign.writes groups ++ written (sign.leaves groups) rest

structure ScriptDraft.Holds (draft : ScriptDraft) (groups : List (Block × String))
    (lines : List Line) : Prop where
  script : draft.script.toList = numbered 0 lines
  nextIndex : draft.nextIndex = lines.length
  groups : draft.groups = groups.map fun block => (block.1.operator, block.2)

namespace ScriptDraft.Holds

variable {draft : ScriptDraft} {groups : List (Block × String)} {lines : List Line}

theorem add (h : draft.Holds groups lines) (line : Line) :
    (draft.add line.kind line.operator line.name).Holds groups (lines ++ [line]) := by
  refine ⟨?_, by simp [ScriptDraft.add, h.nextIndex], h.groups⟩
  rw [numbered_append, ← h.script, Nat.zero_add, ← h.nextIndex]
  exact Array.toList_push

theorem openGroup (h : draft.Holds groups lines) (block : Block) (name : String) :
    (draft.openGroup block.operator name).Holds ((block, name) :: groups)
      (lines ++ [.opening block name]) := by
  obtain ⟨hscript, hindex, hgroups⟩ := h.add (.opening block name)
  exact ⟨hscript, hindex, congrArg (List.cons (block.operator, name)) hgroups⟩

theorem closeGroup (h : draft.Holds groups lines) :
    draft.closeGroup.Holds groups.tail
      (lines ++ [.closing (innermost groups).1 (innermost groups).2]) := by
  have hinnermost : draft.groups.head?.getD (0, "") =
      ((innermost groups).1.operator, (innermost groups).2) := by
    rw [h.groups]
    cases groups <;> rfl
  obtain ⟨hscript, hindex, hgroups⟩ :=
    h.add (.closing (innermost groups).1 (innermost groups).2)
  unfold ScriptDraft.closeGroup
  rw [hinnermost]
  refine ⟨hscript, hindex, ?_⟩
  show draft.groups.tail = _
  rw [h.groups, List.map_tail]

theorem declare (h : draft.Holds groups lines) {d : Declaration} (hguided : d.isGuided = true) :
    (d.sign? = none ∧ (draft.declare d).Holds groups lines) ∨
      ∃ sign, d.sign? = some sign ∧
        (draft.declare d).Holds (sign.leaves groups) (lines ++ sign.writes groups) := by
  cases d with
  | preamble words => exact .inl ⟨rfl, h.script, h.nextIndex, h.groups⟩
  | token token name => cases hguided
  | beginMessage name => exact .inr ⟨_, rfl, h.openGroup .message name⟩
  | beginGroup name => exact .inr ⟨_, rfl, h.openGroup .group name⟩
  | beginSequence name =>
    have hopened := (h.add (.length name)).openGroup .sequence name
    rw [List.append_assoc] at hopened
    exact .inr ⟨_, rfl, hopened⟩
  | endMessage | endGroup | endSequence => exact .inr ⟨_, rfl, h.closeGroup⟩
  | field name kind =>
    exact .inr ⟨_, dif_pos hguided, h.add (.field ⟨name, kind, hguided⟩)⟩

theorem declarations (h : draft.Holds groups lines) {ds : List Declaration}
    (hguided : ∀ d ∈ ds, d.isGuided = true) :
    ∃ left, (ds.foldl ScriptDraft.declare draft).Holds left
      (lines ++ written groups (ds.filterMap Declaration.sign?)) := by
  induction ds generalizing draft groups lines with
  | nil => exact ⟨groups, by simpa [written] using h⟩
  | cons d rest ih =>
    have hrest : ∀ d ∈ rest, d.isGuided = true := fun d hd => hguided d (List.mem_cons_of_mem _ hd)
    rcases h.declare (hguided d List.mem_cons_self) with ⟨hnone, hnext⟩ | ⟨sign, hsome, hnext⟩
    · rw [List.filterMap_cons_none hnone]
      exact ih hnext hrest
    · rw [List.filterMap_cons_some hsome, written, ← List.append_assoc]
      exact ih hnext hrest

end ScriptDraft.Holds

section Spelling

/-- Under any blocks an outline is written as its lines, and leaves the same blocks open. -/
theorem written_outline (outline : Outline) (groups : List (Block × String)) (rest : List Sign) :
    written groups (outline.signs ++ rest) = outline.lines ++ written groups rest := by
  induction outline generalizing groups rest with
  | done => rfl
  | field f behind ih =>
    rw [Outline.signs, List.cons_append, written]
    show [Line.field f] ++ written groups (behind.signs ++ rest) = _
    rw [ih]
    rfl
  | group name inner behind hinner hbehind =>
    rw [Outline.signs, List.cons_append, List.append_assoc, List.cons_append, written]
    show [Line.opening .group name] ++ written ((.group, name) :: groups) _ = _
    rw [hinner, written]
    show _ ++ (_ ++ ([Line.closing .group name] ++ written groups _)) = _
    rw [hbehind]
    simp [Outline.lines]
  | sequence name inner behind hinner hbehind =>
    rw [Outline.signs, List.cons_append, List.append_assoc, List.cons_append, written]
    show [Line.length name, Line.opening .sequence name] ++
      written ((.sequence, name) :: groups) _ = _
    rw [hinner, written]
    show _ ++ (_ ++ ([Line.closing .sequence name] ++ written groups _)) = _
    rw [hbehind]
    simp [Outline.lines]

theorem written_messages (messages : List DeclaredMessage) :
    written [] (messages.flatMap DeclaredMessage.signs) =
      messages.flatMap DeclaredMessage.lines := by
  induction messages with
  | nil => rfl
  | cons m messages ih =>
    rw [List.flatMap_cons, List.flatMap_cons, DeclaredMessage.signs, List.cons_append,
      List.append_assoc, written]
    show [Line.opening .message m.name] ++ written [(.message, m.name)] _ = _
    rw [written_outline]
    show _ ++ (_ ++ ([Line.closing .message m.name] ++
      written [] (messages.flatMap DeclaredMessage.signs))) = _
    rw [ih]
    simp [DeclaredMessage.lines]

theorem exists_body_of_outline (outline : Outline) (index : Nat) :
    ∃ body : Body, body.tokens = tokensFrom index outline.lines := by
  induction outline generalizing index with
  | done => exact ⟨.done, rfl⟩
  | field f behind ih =>
    obtain ⟨rest, hrest⟩ := ih (index + 1)
    exact ⟨.plain _ (role_field f index) rest, congrArg _ hrest⟩
  | group name inner behind hinner hbehind =>
    obtain ⟨inside, hinside⟩ := hinner (index + 1)
    obtain ⟨rest, hrest⟩ := hbehind (index + 1 + inner.lines.length + 1)
    refine ⟨.group _ _ (role_opening .group name index)
      (role_closing .group name (index + 1 + inner.lines.length)) inside rest, ?_⟩
    have hbehind : tokensFrom (index + 1) (inner.lines ++ .closing .group name :: behind.lines) =
        inside.tokens ++ (Line.closing .group name).token (index + 1 + inner.lines.length) ::
          rest.tokens := by
      rw [tokensFrom_append, hinside, hrest]
      rfl
    exact congrArg _ hbehind.symm
  | sequence name inner behind hinner hbehind =>
    obtain ⟨inside, hinside⟩ := hinner (index + 1 + 1)
    obtain ⟨rest, hrest⟩ := hbehind (index + 1 + 1 + inner.lines.length + 1)
    refine ⟨.sequence _ _ _ (role_length name index) (role_opening .sequence name (index + 1))
      (role_closing .sequence name (index + 1 + 1 + inner.lines.length)) inside rest, ?_⟩
    have hbehind : tokensFrom (index + 1 + 1)
          (inner.lines ++ .closing .sequence name :: behind.lines) =
        inside.tokens ++
          (Line.closing .sequence name).token (index + 1 + 1 + inner.lines.length) ::
            rest.tokens := by
      rw [tokensFrom_append, hinside, hrest]
      rfl
    exact congrArg (fun tokens => _ :: _ :: tokens) hbehind.symm

theorem exists_messages_of_declared (messages : List DeclaredMessage) (index : Nat) :
    ∃ found : List Message, found.length = messages.length ∧
      found.flatMap Message.tokens =
        tokensFrom index (messages.flatMap DeclaredMessage.lines) := by
  induction messages generalizing index with
  | nil => exact ⟨[], rfl, rfl⟩
  | cons m messages ih =>
    obtain ⟨body, hbody⟩ := exists_body_of_outline m.outline (index + 1)
    obtain ⟨found, hlength, hfound⟩ := ih (index + m.lines.length)
    refine ⟨⟨_, _, role_opening .message m.name index,
      role_closing .message m.name (index + 1 + m.outline.lines.length), body⟩ :: found,
      by simp [hlength], ?_⟩
    rw [List.flatMap_cons, List.flatMap_cons, hfound, tokensFrom_append]
    congr 1
    rw [Message.tokens, hbody, DeclaredMessage.lines]
    show _ = _ :: tokensFrom (index + 1) _
    rw [tokensFrom_append]
    rfl

end Spelling

section Parsing

variable {groups : List (Block × String)} {index : Nat}

/-- The first token that is written tells what was declared. -/
theorem exists_sign {signs : List Sign} {token : Token} {tokens : List Token}
    (h : tokensFrom index (written groups signs) = token :: tokens) :
    ∃ sign rest, signs = sign :: rest ∧ token.role = sign.leads groups := by
  cases signs with
  | nil => cases h
  | cons sign rest =>
    refine ⟨sign, rest, rfl, ?_⟩
    cases sign with
    | field f =>
      cases h
      exact role_field f index
    | opens block name =>
      cases block <;> cases h
      · exact role_opening .message name index
      · exact role_opening .group name index
      · exact role_length name index
    | closes =>
      cases h
      exact role_closing _ _ index

theorem field_of_leads {sign : Sign} (h : .plain = sign.leads groups) : ∃ f, sign = .field f := by
  cases sign with
  | field f => exact ⟨f, rfl⟩
  | opens block name => cases block <;> cases h
  | closes => cases h

theorem opens_of_leads {sign : Sign} (block : Block) (hne : block ≠ .sequence)
    (h : .opening block.kind = sign.leads groups) : ∃ name, sign = .opens block name := by
  cases sign with
  | field f => cases h
  | opens found name =>
    cases found <;> cases block <;>
      first | exact ⟨name, rfl⟩ | exact absurd rfl hne | cases h
  | closes => cases h

theorem sequence_of_leads {sign : Sign} (h : .length = sign.leads groups) :
    ∃ name, sign = .opens .sequence name := by
  cases sign with
  | field f => cases h
  | opens block name =>
    cases block with
    | message | group => cases h
    | sequence => exact ⟨name, rfl⟩
  | closes => cases h

theorem closes_of_leads {sign : Sign} {kind : GroupKind} (h : .closing kind = sign.leads groups) :
    sign = .closes := by
  cases sign with
  | field f => cases h
  | opens block name => cases block <;> cases h
  | closes => rfl

/-- Where a body and a close are written, an outline was declared and then an end. By induction over
the body, whose tokens tell the declarations one by one. -/
theorem exists_outline {body : Body} {signs : List Sign} {closing : Token} {rest : List Token}
    {kind : GroupKind}
    (h : tokensFrom index (written groups signs) = body.tokens ++ closing :: rest)
    (hclosing : closing.role = .closing kind) :
    ∃ outline signs', signs = Outline.signs outline ++ .closes :: signs' ∧
      tokensFrom (index + body.size + 1) (written groups.tail signs') = rest := by
  induction body generalizing groups index signs closing rest kind with
  | done =>
    obtain ⟨sign, behind, rfl, hleads⟩ := exists_sign h
    obtain rfl := closes_of_leads (hclosing.symm.trans hleads)
    exact ⟨.done, behind, rfl, (List.cons.inj h).2⟩
  | plain token role body ih =>
    obtain ⟨sign, behind, rfl, hleads⟩ := exists_sign h
    obtain ⟨f, rfl⟩ := field_of_leads (role.symm.trans hleads)
    obtain ⟨outline, signs', rfl, hrest⟩ := ih (List.cons.inj h).2 hclosing
    refine ⟨.field f outline, signs', rfl, ?_⟩
    rw [← hrest, Body.size_plain]
    congr 1
    omega
  | group opening closing' opens closes inner body hinner hbody =>
    rw [Body.tokens, List.cons_append, List.append_assoc] at h
    obtain ⟨sign, behind, rfl, hleads⟩ := exists_sign h
    obtain ⟨name, rfl⟩ := opens_of_leads .group Block.noConfusion (opens.symm.trans hleads)
    -- The inner body ends at the close of the group; what is left is the rest of the outer one.
    obtain ⟨inside, signs', rfl, hinside⟩ := hinner (List.cons.inj h).2 closes
    obtain ⟨outline, signs'', rfl, hrest⟩ := hbody hinside hclosing
    refine ⟨.group name inside outline, signs'', by simp [Outline.signs], ?_⟩
    rw [← hrest, Body.size_group]
    show _ = tokensFrom _ (written groups.tail signs'')
    congr 1
    omega
  | sequence length opening closing' counts opens closes inner body hinner hbody =>
    rw [Body.tokens, List.cons_append, List.cons_append, List.append_assoc] at h
    obtain ⟨sign, behind, rfl, hleads⟩ := exists_sign h
    obtain ⟨name, rfl⟩ := sequence_of_leads (counts.symm.trans hleads)
    obtain ⟨inside, signs', rfl, hinside⟩ := hinner (List.cons.inj (List.cons.inj h).2).2 closes
    obtain ⟨outline, signs'', rfl, hrest⟩ := hbody hinside hclosing
    refine ⟨.sequence name inside outline, signs'', by simp [Outline.signs], ?_⟩
    rw [← hrest, Body.size_sequence]
    show _ = tokensFrom _ (written groups.tail signs'')
    congr 1
    omega

theorem exists_declared {messages : List Message} {signs : List Sign}
    (h : tokensFrom index (written [] signs) = messages.flatMap Message.tokens) :
    ∃ declared : List DeclaredMessage, declared.length = messages.length ∧
      signs = declared.flatMap DeclaredMessage.signs := by
  induction messages generalizing index signs with
  | nil =>
    cases signs with
    | nil => exact ⟨[], rfl, rfl⟩
    | cons sign rest =>
      cases sign with
      | field f => cases h
      | opens block name => cases block <;> cases h
      | closes => cases h
  | cons m messages ih =>
    rw [List.flatMap_cons, Message.tokens, List.cons_append, List.append_assoc] at h
    obtain ⟨sign, behind, rfl, hleads⟩ := exists_sign h
    obtain ⟨name, rfl⟩ := opens_of_leads .message Block.noConfusion (m.opens.symm.trans hleads)
    obtain ⟨outline, signs', rfl, hrest⟩ := exists_outline (List.cons.inj h).2 m.closes
    obtain ⟨declared, hlength, rfl⟩ := ih hrest
    exact ⟨⟨name, outline⟩ :: declared, by simp [hlength], by simp [DeclaredMessage.signs]⟩

end Parsing

namespace Layout

def script (l : Layout) : List (Token × String) := l.entries.toList.map fun e => (e.token, e.name)

variable {offset : Int} {token : Token} {name : String} {l l' : Layout} {position : Nat}

theorem script_modify (entries : Array Entry) (i : Nat) {f : Entry → Entry}
    (hf : ∀ e, ((f e).token, (f e).name) = (e.token, e.name)) :
    ((entries.modify i f).toList.map fun e => (e.token, e.name)) =
      entries.toList.map fun e => (e.token, e.name) := by
  apply List.ext_getElem?
  intro j
  simp only [List.getElem?_map, Array.getElem?_toList, Array.getElem?_modify]
  split
  · rw [Option.map_map]
    exact congrArg (fun g => Option.map g entries[j]?) (funext hf)
  · rfl

theorem script_finish (l : Layout) : l.finish.script = l.script := by
  unfold finish script
  split
  · rfl
  · exact script_modify _ _ fun _ => rfl

theorem script_fragmentFor (h : l.fragmentFor offset token = .ok l') : l'.script = l.script := by
  unfold fragmentFor at h
  split at h
  · simp only at h
    split at h <;> cases h
    rfl
  · cases h
    rfl

theorem script_openLength {next : Option Token} (h : l.openLength position next = .ok l') :
    l'.script = l.script := by
  unfold openLength at h
  split at h <;> cases h
  exact l.script_finish

theorem script_openGroup {previous : Option Token} {kind : GroupKind}
    (h : l.openGroup position previous kind = .ok l') : l'.script = l.script := by
  unfold openGroup at h
  split at h
  · cases h
  · split at h <;> cases h
    rfl

theorem script_closeGroup {kind : GroupKind} (h : l.closeGroup position kind = .ok l') :
    l'.script = l.script := by
  unfold closeGroup at h
  split at h
  · cases h
  · split at h
    · cases h
    · split at h
      · split at h <;> cases h
        refine Eq.trans (script_modify _ _ ?_) l.script_finish
        exact fun _ => rfl
      · split at h <;> cases h
        · exact l.script_finish
        · rfl

theorem script_step {next : Option Token} (h : l.step offset next token name = .ok l') :
    l'.script = l.script ++ [(token, name)] := by
  unfold step at h
  cases hbegun : l.fragmentFor offset token with
  | error cause =>
    simp only [hbegun, bind, Except.bind] at h
    cases h
  | ok begun =>
    simp only [hbegun, bind, Except.bind] at h
    have hlaid : (begun.lay token name
        (l.boundary && !token.isClosing && l.groups.isEmpty)).script =
        l.script ++ [(token, name)] := by
      rw [← script_fragmentFor hbegun]
      simp [script, lay]
    rw [← hlaid]
    split at h
    · exact script_openLength h
    · exact script_openGroup h
    · exact script_closeGroup h
    · cases h
      rfl

theorem script_steps {items : List (Token × String)} (h : steps offset items l = .ok l') :
    l'.script = l.script ++ items := by
  induction items generalizing l with
  | nil =>
    cases h
    exact (List.append_nil _).symm
  | cons item rest ih =>
    unfold steps at h
    cases hstep : l.step offset (rest.head?.map Prod.fst) item.1 item.2 with
    | error cause =>
      simp only [hstep, bind, Except.bind] at h
      cases h
    | ok next =>
      simp only [hstep, bind, Except.bind] at h
      rw [ih h, script_step hstep, List.append_assoc]
      rfl

end Layout

namespace Schema

theorem script_flat (offset : Int) (script : List (Token × String)) :
    (flat offset script).script = script := by
  have hentries : ∀ (position : Nat) (words : Int) (script : List (Token × String)),
      (flatEntries position words script).map (fun e => (e.token, e.name)) = script := by
    intro position words script
    induction script generalizing position words with
    | nil => rfl
    | cons item rest ih => simp [flatEntries, ih]
  refine Eq.trans (Layout.script_modify _ _ ?_) (hentries 0 (offset + 1) script)
  exact fun _ => rfl

theorem script_of_ofScript {tokens : List Token} {names : List String} {offset : Int} {s : Schema}
    (h : ofScript tokens names offset = .ok s) : s.script = nameTokens tokens names := by
  obtain ⟨-, -, ⟨-, rfl⟩ | ⟨l, hl, -, rfl⟩⟩ := ofScript_ok h
  · exact script_flat _ _
  · exact Layout.script_steps hl

theorem nameTokens_unzip (script : List (Token × String)) :
    nameTokens (script.map Prod.fst) (script.map Prod.snd) = script := by
  induction script with
  | nil => rfl
  | cons item rest ih =>
    rw [List.map_cons, List.map_cons, nameTokens, ih]

end Schema

section Declaring

variable {ds : List Declaration}

theorem ofDeclarations_eq (h : ∀ d ∈ ds, d.isGuided = true) :
    ∃ offset, Schema.ofDeclarations ds =
      Schema.ofScript (tokensFrom 0 (written [] (ds.filterMap Declaration.sign?)))
        ((numbered 0 (written [] (ds.filterMap Declaration.sign?))).map Prod.snd) offset := by
  have hempty : ScriptDraft.empty.Holds [] [] := ⟨rfl, rfl, rfl⟩
  obtain ⟨left, hscript, -, -⟩ := hempty.declarations h
  refine ⟨(ds.foldl ScriptDraft.declare ScriptDraft.empty).preamble, ?_⟩
  unfold Schema.ofDeclarations ScriptDraft.build tokensFrom
  rw [hscript]
  rfl

theorem script_ofDeclarations (h : ∀ d ∈ ds, d.isGuided = true) {s : Schema}
    (hs : Schema.ofDeclarations ds = .ok s) :
    s.script = numbered 0 (written [] (ds.filterMap Declaration.sign?)) := by
  obtain ⟨offset, heq⟩ := ofDeclarations_eq h
  rw [heq] at hs
  exact (Schema.script_of_ofScript hs).trans (Schema.nameTokens_unzip _)

theorem written_fields (groups : List (Block × String)) (fields : List DeclaredField) :
    written groups (fields.map Sign.field) = fields.map Line.field := by
  induction fields with
  | nil => rfl
  | cons f rest ih => exact congrArg (List.cons (Line.field f)) ih

theorem isStructural_field (f : DeclaredField) (index : Nat) :
    ((Line.field f).token index).isStructural = false := by
  obtain ⟨name, kind, plain⟩ := f
  cases kind with
  | value | dictionary =>
    simp [Line.field, Line.token, Token.isStructural, Token.isGroup, Token.isLength]
  | group | sequenceLength => cases plain

theorem isStructural_fields {fields : List DeclaredField} {index : Nat} {token : Token}
    (h : token ∈ tokensFrom index (fields.map Line.field)) : token.isStructural = false := by
  induction fields generalizing index with
  | nil => cases h
  | cons f rest ih =>
    rcases List.mem_cons.1 h with rfl | hrest
    · exact isStructural_field f index
    · exact ih hrest

theorem fields_of_not_structural {groups : List (Block × String)} {index : Nat} {signs : List Sign}
    (h : ∀ token ∈ tokensFrom index (written groups signs), token.isStructural = false) :
    ∃ fields : List DeclaredField, signs = fields.map Sign.field := by
  induction signs generalizing groups index with
  | nil => exact ⟨[], rfl⟩
  | cons sign rest ih =>
    obtain ⟨token, tokens, hwritten⟩ :
        ∃ token tokens, tokensFrom index (written groups (sign :: rest)) = token :: tokens := by
      cases sign with
      | field | closes => exact ⟨_, _, rfl⟩
      | opens block name => cases block <;> exact ⟨_, _, rfl⟩
    obtain ⟨sign', rest', hsame, hleads⟩ := exists_sign hwritten
    obtain ⟨rfl, rfl⟩ := List.cons.inj hsame
    have hplain := Token.role_of_not_structural
      (h token (by rw [hwritten]; exact List.mem_cons_self))
    obtain ⟨f, rfl⟩ := field_of_leads (hplain.symm.trans hleads)
    have hrest : ∀ token ∈ tokensFrom (index + 1) (written groups rest),
        token.isStructural = false := fun token htoken => h token (List.mem_cons_of_mem _ htoken)
    obtain ⟨fields, rfl⟩ := ih hrest
    exact ⟨f :: fields, rfl⟩

theorem fields_iff (h : ∀ d ∈ ds, d.isGuided = true) :
    (∃ fields : List DeclaredField, ds.filterMap Declaration.sign? = fields.map Sign.field) ↔
      ∀ d ∈ ds, d.isBracket = false := by
  induction ds with
  | nil => exact ⟨fun _ _ hd => (nomatch hd), fun _ => ⟨[], rfl⟩⟩
  | cons d rest ih =>
    have ih := ih fun d hd => h d (List.mem_cons_of_mem _ hd)
    rw [List.forall_mem_cons, ← ih]
    cases d with
    | preamble words => exact ⟨fun hfields => ⟨rfl, hfields⟩, fun hfields => hfields.2⟩
    | token token name => cases h _ List.mem_cons_self
    | field name kind =>
      have hplain : kind.isPlain = true := h _ List.mem_cons_self
      have hsign : (Declaration.field name kind).sign? = some (.field ⟨name, kind, hplain⟩) :=
        dif_pos hplain
      rw [List.filterMap_cons_some hsign]
      constructor
      · rintro ⟨fields, hfields⟩
        cases fields with
        | nil => cases hfields
        | cons f fields => exact ⟨rfl, fields, (List.cons.inj hfields).2⟩
      · rintro ⟨-, fields, hfields⟩
        exact ⟨⟨name, kind, hplain⟩ :: fields, congrArg _ hfields⟩
    | beginMessage | beginGroup | beginSequence | endMessage | endGroup | endSequence =>
      constructor
      · rintro ⟨fields, hfields⟩
        cases fields <;> cases hfields
      · rintro ⟨hbracket, -⟩
        cases hbracket

theorem exists_field_iff {fields : List DeclaredField}
    (hfields : ds.filterMap Declaration.sign? = fields.map Sign.field)
    (h : ∀ d ∈ ds, d.isGuided = true) :
    (∃ name kind, Declaration.field name kind ∈ ds) ↔ fields ≠ [] := by
  constructor
  · rintro ⟨name, kind, hmem⟩ rfl
    have hsign : (Declaration.field name kind).sign? = some (.field ⟨name, kind, h _ hmem⟩) :=
      dif_pos (h _ hmem)
    have hin := List.mem_filterMap.2 ⟨_, hmem, hsign⟩
    rw [hfields] at hin
    cases hin
  · intro hne
    obtain ⟨f, rest, rfl⟩ := List.exists_cons_of_ne_nil hne
    have hin : Sign.field f ∈ ds.filterMap Declaration.sign? := by
      rw [hfields]
      exact List.mem_cons_self
    obtain ⟨d, hmem, hsign⟩ := List.mem_filterMap.1 hin
    cases d with
    | field name kind => exact ⟨name, kind, hmem⟩
    | preamble | token | beginMessage | beginGroup | beginSequence | endMessage | endGroup
    | endSequence => cases hsign

/-- The grammar of scripts, read off the declarations. -/
theorem grammatical_iff (h : ∀ d ∈ ds, d.isGuided = true) :
    Schema.Grammatical (tokensFrom 0 (written [] (ds.filterMap Declaration.sign?))) ↔
      ((∃ name kind, Declaration.field name kind ∈ ds) ∧ ∀ d ∈ ds, d.isBracket = false) ∨
        ∃ messages : List DeclaredMessage, messages ≠ [] ∧
          ds.filterMap Declaration.sign? = messages.flatMap DeclaredMessage.signs := by
  constructor
  · rintro ⟨hne, -, hflat | ⟨messages, hmessages, htokens⟩⟩
    · left
      obtain ⟨fields, hfields⟩ := fields_of_not_structural hflat
      refine ⟨(exists_field_iff hfields h).2 ?_, (fields_iff h).1 ⟨fields, hfields⟩⟩
      rintro rfl
      rw [hfields] at hne
      exact hne rfl
    · right
      obtain ⟨declared, hlength, hsigns⟩ := exists_declared htokens
      refine ⟨declared, ?_, hsigns⟩
      rintro rfl
      exact hmessages (List.eq_nil_of_length_eq_zero hlength.symm)
  · rintro (⟨hfield, hflat⟩ | ⟨messages, hne, hsigns⟩)
    · obtain ⟨fields, hfields⟩ := (fields_iff h).2 hflat
      have hsome := (exists_field_iff hfields h).1 hfield
      rw [hfields, written_fields]
      refine ⟨?_, fun _ => kind?_of_tokensFrom, .inl fun _ => isStructural_fields⟩
      obtain ⟨f, rest, rfl⟩ := List.exists_cons_of_ne_nil hsome
      exact List.cons_ne_nil _ _
    · rw [hsigns, written_messages]
      obtain ⟨found, hlength, hfound⟩ := exists_messages_of_declared messages 0
      refine ⟨?_, fun _ => kind?_of_tokensFrom, .inr ⟨found, ?_, hfound.symm⟩⟩
      · obtain ⟨m, rest, rfl⟩ := List.exists_cons_of_ne_nil hne
        exact List.cons_ne_nil _ _
      · rintro rfl
        exact hne (List.eq_nil_of_length_eq_zero hlength.symm)

/-- Declarations make a schema exactly if they are fields, one at least, or spell a row of messages,
one at least. The schema has the fields in order, or the messages with their brackets written
out. -/
theorem declarations_compile (h : ∀ d ∈ ds, d.isGuided = true) :
    ((∃ s, Schema.ofDeclarations ds = .ok s) ↔
      ((∃ name kind, Declaration.field name kind ∈ ds) ∧ ∀ d ∈ ds, d.isBracket = false) ∨
        ∃ messages : List DeclaredMessage, messages ≠ [] ∧
          ds.filterMap Declaration.sign? = messages.flatMap DeclaredMessage.signs) ∧
    ∀ s, Schema.ofDeclarations ds = .ok s →
      (∀ fields : List DeclaredField, ds.filterMap Declaration.sign? = fields.map Sign.field →
        s.script = numbered 0 (fields.map Line.field)) ∧
      ∀ messages : List DeclaredMessage,
        ds.filterMap Declaration.sign? = messages.flatMap DeclaredMessage.signs →
          s.script = numbered 0 (messages.flatMap DeclaredMessage.lines) := by
  refine ⟨?_, fun s hs => ⟨fun fields hfields => ?_, fun messages hmessages => ?_⟩⟩
  · obtain ⟨offset, heq⟩ := ofDeclarations_eq h
    rw [heq, Schema.compiles_iff, grammatical_iff h]
  · rw [script_ofDeclarations h hs, hfields, written_fields]
  · rw [script_ofDeclarations h hs, hmessages, written_messages]

/-- An end closes the innermost block, whichever of the three it is. -/
theorem declarations_compile_crossed :
    ∃ s, Schema.ofDeclarations
        [.beginMessage "Book", .field "Venue" (.value .integerSigned false),
          .beginSequence "Levels", .field "Price" (.value .decimal true), .endMessage,
          .endGroup] = .ok s ∧
      s.script = numbered 0
        [.opening .message "Book", .field ⟨"Venue", .value .integerSigned false, rfl⟩,
          .length "Levels", .opening .sequence "Levels",
          .field ⟨"Price", .value .decimal true, rfl⟩, .closing .sequence "Levels",
          .closing .message "Book"] := by
  have hguided : ∀ d ∈ [Declaration.beginMessage "Book",
      .field "Venue" (.value .integerSigned false), .beginSequence "Levels",
      .field "Price" (.value .decimal true), .endMessage, .endGroup], d.isGuided = true := by
    decide
  obtain ⟨hcompiles, hscript⟩ := declarations_compile hguided
  let book : DeclaredMessage := ⟨"Book", .field ⟨"Venue", .value .integerSigned false, rfl⟩
    (.sequence "Levels" (.field ⟨"Price", .value .decimal true, rfl⟩ .done) .done)⟩
  obtain ⟨s, hs⟩ := hcompiles.2 (.inr ⟨[book], List.cons_ne_nil _ _, rfl⟩)
  exact ⟨s, hs, (hscript s hs).2 [book] rfl⟩

end Declaring

end FragmentPipe
