import FragmentPipe.Pipe.Read
import FragmentPipe.Pipe.Write

set_option autoImplicit false

namespace FragmentPipe

namespace Ring

def copyPrepared (r source : Ring) (c : Consumer) (head : Mark) : Ring :=
  { r with
    words := r.words.copyFrom source.words c.tail.words head.words c.extent.words
    bytes := r.bytes.copyFrom source.bytes c.tail.bytes head.bytes c.extent.bytes }

def repeatPrepared (r : Ring) (c : Consumer) (head : Mark) : Ring :=
  { r with
    words := r.words.copyWithin c.tail.words head.words c.extent.words
    bytes := r.bytes.copyWithin c.tail.bytes head.bytes c.extent.bytes }

end Ring

namespace Pipe

/-- Append and publish a fragment whose words and bytes `transfer` puts at the producer's head. -/
def append (p : Pipe) (c : Consumer) (transfer : Ring → Mark → Ring) : Pipe :=
  let p := p.publish
  let p := if c.isNewMessage then p.rebaseWrites else p
  let w := p.producer
  let p := { p with
    ring := transfer p.ring w.head
    producer := { w with
      head := w.head + c.extent
      fragmentsWritten := w.fragmentsWritten + 1
      messagesWritten :=
        if c.isNewMessage && !c.endOfStream then w.messagesWritten + 1 else w.messagesWritten } }
  p.publish

def accept (p : Pipe) (c : Consumer) (transfer : Ring → Mark → Ring) : Except Fault Bool × Pipe :=
  if c.hasFragment then
    let (room, p) := p.roomFor c.extent
    if room then (.ok true, p.append c transfer) else (.ok false, p)
  else (.error (.error .nothingPrepared), p)

def relayFrom (p source : Pipe) : Except Fault Bool × Pipe :=
  p.accept source.consumer fun ring => ring.copyPrepared source.ring source.consumer

def relayWithin (p : Pipe) : Except Fault Bool × Pipe :=
  p.accept p.consumer fun ring => ring.repeatPrepared p.consumer

end Pipe

end FragmentPipe
