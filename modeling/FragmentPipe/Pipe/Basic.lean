import FragmentPipe.Config
import FragmentPipe.SequenceStack

set_option autoImplicit false

/-!
# The two halves of a pipe

The producer runs ahead of the published head and the consumer behind it. Each half keeps positions
of its own and remembers what it last saw of the other half's counters, which it looks up again only
when that falls short.
-/
namespace FragmentPipe

structure OpenFragment where
  trailer : Nat
  bytesStart : Nat
deriving DecidableEq, Repr

structure Producer where
  seenTail : Mark
  head : Mark
  /-- Byte position that the spans of the current message are counted from. -/
  byteBase : Nat
  starts : Array Nat
  pending : Option OpenFragment
  fragmentsWritten : Nat
  messagesWritten : Nat
deriving DecidableEq, Repr

def Producer.fresh (slots : Nat) : Producer :=
  ⟨.origin, .origin, 0, Array.replicate slots 0, none, 0, 0⟩

structure Consumer where
  /-- The fragment prepared last; none before the first and at an end of stream. -/
  cursor : Option Nat
  /-- The fragment due next; none when a message comes next. -/
  nextCursor : Option Nat
  messageId : Option Nat
  previousMessageId : Option Nat
  isNewMessage : Bool
  endOfStream : Bool
  hasFragment : Bool
  seenHead : Nat
  /-- Start of the prepared fragment; everything before it may be released. -/
  tail : Mark
  next : Nat
  byteBase : Nat
  /-- Bytes of the prepared fragment, left behind when the next one is prepared. -/
  fragmentBytes : Nat
  starts : Array Nat
  sequences : SequenceStack Nat
  batchRelease : Int
  batchCountdown : Int
  releaseCount : Nat
  fragmentsRead : Nat
  messagesRead : Nat

namespace Consumer

def idle (slots : Nat) (sequences : SequenceStack Nat) (batchRelease : Int) : Consumer where
  cursor := none
  nextCursor := none
  messageId := none
  previousMessageId := none
  isNewMessage := false
  endOfStream := false
  hasFragment := false
  seenHead := 0
  tail := .origin
  next := 0
  byteBase := 0
  fragmentBytes := 0
  starts := Array.replicate slots 0
  sequences
  batchRelease
  batchCountdown := batchRelease
  releaseCount := 0
  fragmentsRead := 0
  messagesRead := 0

def fresh (slots : Nat) (batchRelease : Int) : Consumer :=
  idle slots (.withCapacity slots 0) batchRelease

/-- Back to the beginning; only the slots of the sequence stack keep what they held. -/
def rewind (c : Consumer) : Consumer := idle c.starts.size c.sequences.clear c.batchRelease

def extent (c : Consumer) : Mark := ⟨c.next - c.tail.words, c.fragmentBytes⟩

end Consumer

structure Pipe where
  schema : Schema
  config : Config
  ring : Ring
  producer : Producer
  consumer : Consumer

namespace Pipe

def fresh (schema : Schema) (config : Config) : Pipe where
  schema
  config
  ring := .blank config.size.wordBits config.size.byteBits
  producer := .fresh schema.maxFragmentDepth
  consumer := .fresh schema.maxFragmentDepth config.batchRelease

def build (schema : Schema) (config : Config) : Except PipeError Pipe :=
  match config.validate schema with
  | .ok () => .ok (fresh schema config)
  | .error fault => .error (.invalidConfig fault)

def reset (p : Pipe) : Pipe :=
  { p with
    ring := p.ring.clear
    producer := .fresh p.producer.starts.size
    consumer := p.consumer.rewind }

def isOrdered (p : Pipe) : Bool :=
  p.ring.tail ≤ p.consumer.tail && p.consumer.tail ≤ p.ring.head
    && p.ring.head ≤ p.producer.head && p.producer.head ≤ p.ring.tail + p.ring.capacity

def isMessageDue (p : Pipe) : Bool :=
  match p.consumer.nextCursor with
  | none => true
  | some next => p.schema.size ≤ next || p.schema.isMessageStart next

theorem build_eq_fresh {schema : Schema} {config : Config}
    (h : (config.validate schema).isOk = true) :
    build schema config = .ok (fresh schema config) := by
  unfold build
  cases hvalid : config.validate schema with
  | ok => rfl
  | error fault =>
    rw [hvalid] at h
    cases h

theorem eq_fresh_of_build {schema : Schema} {config : Config} {p : Pipe}
    (h : build schema config = .ok p) : p = fresh schema config := by
  unfold build at h
  split at h
  · cases h
    rfl
  · cases h

end Pipe

end FragmentPipe
