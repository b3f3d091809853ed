import FragmentPipe.Pipe.Basic
import FragmentPipe.Text.Utf8
import FragmentPipe.Value

set_option autoImplicit false

namespace FragmentPipe

def Consumer.position? (c : Consumer) (loc : Locator) : Option Nat :=
  c.starts[loc.depth]?.map (· + loc.offset)

namespace Ring

def longAt (r : Ring) (position : Nat) : Int64 :=
  Long.join (r.word position) (r.word (position + 1))

def spanAt (r : Ring) (position : Nat) : Nat × Nat :=
  ((r.word position).toInt.toNat, (r.word (position + 1)).toInt.toNat)

/-- At most `limit` bytes of a span that is counted from `base`. -/
def spanBytes (r : Ring) (base position limit : Nat) : List UInt8 :=
  let span := r.spanAt position
  r.bytes.read (base + span.1) (min span.2 limit)

def valueAt (r : Ring) (base position : Nat) : Shape → Value
  | .word => .word (r.word position)
  | .long => .long (r.longAt position)
  | .decimal => .decimal (r.word position) (r.longAt (position + 1))
  | .bytes => .bytes (r.spanBytes base position (r.spanAt position).2)

end Ring

namespace Pipe

def atField {α : Type} (p : Pipe) (loc : Locator) (look : Nat → α) : Except Fault α :=
  match p.consumer.position? loc with
  | none => .error .outOfRange
  | some position => .ok (look position)

def readValue (p : Pipe) (loc : Locator) (shape : Shape) : Except Fault Value :=
  p.atField loc fun position => p.ring.valueAt p.consumer.byteBase position shape

def readLength (p : Pipe) (loc : Locator) : Except Fault Nat :=
  p.atField loc fun position => (p.ring.spanAt position).2

def readBytes (p : Pipe) (loc : Locator) (limit : Nat) : Except Fault (List UInt8) :=
  p.atField loc fun position => p.ring.spanBytes p.consumer.byteBase position limit

def readText (p : Pipe) (loc : Locator) : Except Fault String :=
  p.atField loc fun position =>
    Text.decodeLossy (p.ring.spanBytes p.consumer.byteBase position (p.ring.spanAt position).2)

end Pipe

end FragmentPipe
