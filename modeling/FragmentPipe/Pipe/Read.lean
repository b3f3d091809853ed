import FragmentPipe.Pipe.Basic
import FragmentPipe.Pipe.Check

set_option autoImplicit false

namespace FragmentPipe

inductive ReadItem where
  | marker
  | message (fragment : Fragment)
  | continuation (fragment : Fragment)
deriving DecidableEq, Repr

namespace ReadItem

def fragment? : ReadItem → Option Fragment
  | .marker => none
  | .message fragment | .continuation fragment => some fragment

def words (schema : Schema) : ReadItem → Nat
  | .marker => distance schema.markerWords
  | .message fragment | .continuation fragment => fragment.words

def depth : ReadItem → Nat
  | .marker | .message _ => 0
  | .continuation fragment => fragment.depth

def startsMessage : ReadItem → Bool
  | .marker | .message _ => true
  | .continuation _ => false

end ReadItem

def Schema.lastOf? (s : Schema) (fragment : Fragment) : Option (Nat × Entry) :=
  let last := fragment.start + fragment.tokens - 1
  s.entries[last]?.map fun entry => (last, entry)

/-- Walk over the closes that lie between fragments. The close of a sequence with iterations left
leads back to its body; one without closes the sequence and the walk goes on, so any number of
sequences can end at one place. -/
def walkCloses : List Entry → Nat → SequenceStack Nat → Nat × SequenceStack Nat
  | [], position, sequences => (position, sequences)
  | entry :: rest, position, sequences =>
    if entry.token.closesSequence then
      match sequences.finishIteration with
      | (some body, sequences) => (body, sequences)
      | (none, sequences) => walkCloses rest (position + 1) sequences
    else if entry.token.isClosing then walkCloses rest (position + 1) sequences
    else (position, sequences)

namespace Consumer

def resumeAt (schema : Schema) (position : Nat) (c : Consumer) : Consumer :=
  let (next, sequences) := walkCloses (schema.entries.toList.drop position) position c.sequences
  { c with nextCursor := some next, sequences }

/-- Find the fragment that follows the prepared one, opening or closing sequences by the prepared
one's last token. -/
def enter (schema : Schema) (ring : Ring) (fragment : Fragment) (c : Consumer) : Option Consumer :=
  match schema.lastOf? fragment with
  | none => none
  | some (last, entry) =>
    let c := { c with cursor := some fragment.start, nextCursor := some (last + 1) }
    if entry.token.isLength then
      let count := (ring.word (c.tail.words + entry.wordDistance)).toInt
      if 0 < count then
        (c.sequences.push ⟨count, last + 1⟩).map fun sequences => { c with sequences }
      else match entry.sequenceEnd with
        | none => some { c with nextCursor := none }
        | some position => some (c.resumeAt schema position)
    else if entry.token.closesSequence then
      match c.sequences.finishIteration with
      | (some body, sequences) => some { c with nextCursor := some body, sequences }
      | (none, sequences) => some ({ c with sequences }.resumeAt schema (last + 1))
    else some c

def begin (item : ReadItem) (start words bytes : Nat) (c : Consumer) : Consumer :=
  let tail : Mark := ⟨start, c.tail.bytes + c.fragmentBytes⟩
  { c with
    tail
    next := start + words
    fragmentBytes := bytes
    byteBase := if item.startsMessage then tail.bytes else c.byteBase
    sequences := if item.startsMessage then c.sequences.clear else c.sequences
    starts := c.starts.setIfInBounds item.depth start
    hasFragment := true
    fragmentsRead := c.fragmentsRead + 1
    batchCountdown := c.batchCountdown - 1 }

def identify (item : ReadItem) (c : Consumer) : Consumer :=
  match item with
  | .marker =>
    { c with
      previousMessageId := c.messageId, messageId := none, cursor := none, nextCursor := none
      isNewMessage := true, endOfStream := true }
  | .message fragment =>
    { c with
      previousMessageId := c.messageId, messageId := some fragment.start
      isNewMessage := true, endOfStream := false, messagesRead := c.messagesRead + 1 }
  | .continuation _ => { c with isNewMessage := false }

end Consumer

namespace Pipe

/-- Whether every word below `target` is published. The head is looked up only if the one seen last
does not reach that far. -/
def isVisible (p : Pipe) (target : Nat) : Bool × Pipe :=
  if target ≤ p.consumer.seenHead then (true, p)
  else
    let p := { p with consumer := { p.consumer with seenHead := p.ring.head.words } }
    (target ≤ p.consumer.seenHead, p)

/-- Whether `size` words from `start` on are published. It is an error if only some of them are. -/
def await (p : Pipe) (start size : Nat) : Except PipeError Bool × Pipe :=
  let (visible, p) := p.isVisible (start + size)
  if visible then (.ok true, p)
  else if start < p.consumer.seenHead then (.error (.ofSplit start size p.consumer.seenHead), p)
  else (.ok false, p)

def release (p : Pipe) : Pipe :=
  let c := p.consumer
  { p with
    ring := { p.ring with tail := c.tail }
    consumer := { c with batchCountdown := c.batchRelease, releaseCount := c.releaseCount + 1 } }

def releaseBatch (p : Pipe) : Pipe :=
  if p.consumer.batchCountdown ≤ 0 then p.release else p

def inspect (p : Pipe) (start : Nat) (item : ReadItem) : Except Fault Nat :=
  match p.ring.trailerAt (start + item.words p.schema - 1) with
  | .error cause => .error (.error cause)
  | .ok bytes =>
    match item.fragment? with
    | none => .ok bytes
    | some fragment =>
      match p.schema.lastOf? fragment with
      | none => .error .outOfRange
      | some (_, entry) =>
        if entry.token.isLength then
          match p.ring.lengthAt (start + entry.wordDistance) with
          | .error cause => .error (.error cause)
          | .ok _ => .ok bytes
        else .ok bytes

def commit (p : Pipe) (start : Nat) (item : ReadItem) (bytes : Nat) : Option Pipe :=
  if item.depth < p.consumer.starts.size then
    let p := { p with consumer := p.consumer.begin item start (item.words p.schema) bytes }
    let p := p.releaseBatch
    let c := p.consumer.identify item
    match item.fragment? with
    | none => some { p with consumer := c }
    | some fragment => (c.enter p.schema p.ring fragment).map fun c => { p with consumer := c }
  else none

def prepare (p : Pipe) (start : Nat) (item : ReadItem) : Except Fault Bool × Pipe :=
  match p.await start (item.words p.schema) with
  | (.error cause, p) => (.error (.error cause), p)
  | (.ok false, p) => (.ok false, p)
  | (.ok true, p) =>
    match p.inspect start item with
    | .error fault => (.error fault, p)
    | .ok bytes =>
      match p.commit start item bytes with
      | some p => (.ok true, p)
      | none => (.error .outOfRange, p)

def itemOf? (p : Pipe) : TemplateId → Option ReadItem
  | .endOfStream => some .marker
  | .message id => (p.schema.fragment? id).map .message

def readMessage (p : Pipe) : Except Fault Bool × Pipe :=
  let start := p.consumer.next
  match p.await start (p.schema.idDistance + 1) with
  | (.error cause, p) => (.error (.error cause), p)
  | (.ok false, p) => (.ok false, p)
  | (.ok true, p) =>
    let position := start + p.schema.idDistance
    match p.ring.classifyId p.schema (p.ring.word position) position with
    | .error cause => (.error (.error cause), p)
    | .ok id =>
      match p.itemOf? id with
      | some item => p.prepare start item
      | none => (.error .outOfRange, p)

def readContinuation (p : Pipe) : Except Fault Bool × Pipe :=
  let cursor := positionValue p.consumer.nextCursor
  let due := if p.isMessageDue then none else p.schema.fragment? cursor
  match due with
  | none => (.error (.error (.noFragmentAt cursor)), p)
  | some fragment => p.prepare p.consumer.next (.continuation fragment)

def read (p : Pipe) : Except Fault Bool × Pipe :=
  if p.isMessageDue then p.readMessage else p.readContinuation

def releaseNow (p : Pipe) : Pipe :=
  if p.consumer.batchCountdown ≠ p.consumer.batchRelease
      ∨ p.ring.tail.words ≠ p.consumer.tail.words then p.release
  else p

def rebaseReads (p : Pipe) : Pipe :=
  { p with consumer := { p.consumer with byteBase := p.consumer.tail.bytes } }

/-- Move over words that were published without a frame. The prepared fragment is left behind with
its bytes. -/
def skip (p : Pipe) (words : Nat) : Except Fault Unit × Pipe :=
  let requested := p.consumer.next + words
  let (visible, p) := p.isVisible requested
  let c := p.consumer
  if visible then
    (.ok (), { p with
      consumer := { c with
        tail := ⟨requested, c.tail.bytes + c.fragmentBytes⟩
        next := requested
        fragmentBytes := 0
        hasFragment := false } })
  else (.error (.error (.overrun .structured requested c.seenHead)), p)

theorem ring_isVisible (p : Pipe) (target : Nat) : (p.isVisible target).2.ring = p.ring := by
  unfold isVisible
  split <;> rfl

end Pipe

end FragmentPipe
