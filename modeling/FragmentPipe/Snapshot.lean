import FragmentPipe.Pipe.Basic

set_option autoImplicit false

namespace FragmentPipe

structure Snapshot where
  publishedHead : Mark
  releasedTail : Mark
  writtenHead : Mark
  writeBase : Nat
  fragmentsWritten : Nat
  messagesWritten : Nat
  writeStarts : List Nat
  cursor : Option Nat
  nextCursor : Option Nat
  messageId : Option Nat
  previousMessageId : Option Nat
  isNewMessage : Bool
  isEndOfStream : Bool
  isMessageDue : Bool
  isOrdered : Bool
  sequenceDepth : Nat
  preparedTail : Mark
  next : Nat
  readBase : Nat
  sequenceRemaining : Option Int
  releaseCount : Nat
  fragmentsRead : Nat
  messagesRead : Nat
deriving DecidableEq, Repr

def Pipe.snapshot (p : Pipe) : Snapshot where
  publishedHead := p.ring.head
  releasedTail := p.ring.tail
  writtenHead := p.producer.head
  writeBase := p.producer.byteBase
  fragmentsWritten := p.producer.fragmentsWritten
  messagesWritten := p.producer.messagesWritten
  writeStarts := p.producer.starts.toList
  cursor := p.consumer.cursor
  nextCursor := p.consumer.nextCursor
  messageId := p.consumer.messageId
  previousMessageId := p.consumer.previousMessageId
  isNewMessage := p.consumer.isNewMessage
  isEndOfStream := p.consumer.endOfStream
  isMessageDue := p.isMessageDue
  isOrdered := p.isOrdered
  sequenceDepth := p.consumer.sequences.depth
  preparedTail := p.consumer.tail
  next := p.consumer.next
  readBase := p.consumer.byteBase
  sequenceRemaining := p.consumer.sequences.remaining?
  releaseCount := p.consumer.releaseCount
  fragmentsRead := p.consumer.fragmentsRead
  messagesRead := p.consumer.messagesRead

end FragmentPipe
