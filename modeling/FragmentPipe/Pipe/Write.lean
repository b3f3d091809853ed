import FragmentPipe.Pipe.Basic
import FragmentPipe.Value

set_option autoImplicit false

namespace FragmentPipe

namespace Producer

def fits (w : Producer) (capacity request : Mark) : Bool := w.head + request ≤ w.seenTail + capacity

def position? (w : Producer) (loc : Locator) : Option Nat :=
  w.starts[loc.depth]?.map (· + loc.offset)

end Producer

namespace Pipe

/-- Whether words and bytes fit behind the released tail, which is looked up only if the one seen
last does not leave room enough. -/
def roomFor (p : Pipe) (request : Mark) : Bool × Pipe :=
  if p.producer.fits p.ring.capacity request then (true, p)
  else
    let p := { p with producer := { p.producer with seenTail := p.ring.tail } }
    (p.producer.fits p.ring.capacity request, p)

/-- A fragment is complete once its trailer counts the bytes written since it was opened. -/
def storeTrailer (p : Pipe) : Pipe :=
  match p.producer.pending with
  | none => p
  | some fragment =>
    let written := p.producer.head.bytes - fragment.bytesStart
    { p with
      ring := p.ring.setWord fragment.trailer (Int32.ofNat written)
      producer := { p.producer with pending := none } }

def rebaseWrites (p : Pipe) : Pipe :=
  { p with producer := { p.producer with byteBase := p.producer.head.bytes } }

def publish (p : Pipe) : Pipe :=
  let p := p.storeTrailer
  { p with ring := { p.ring with head := p.producer.head } }

def stampMessage (p : Pipe) (id : Nat) : Pipe :=
  let p := p.rebaseWrites
  { p with
    ring := p.ring.setWord (p.producer.head.words + p.schema.idDistance) (Int32.ofNat id)
    producer := { p.producer with messagesWritten := p.producer.messagesWritten + 1 } }

def claimFragment (p : Pipe) (fragment : Fragment) (depth : Nat) : Pipe :=
  let w := p.producer
  { p with
    producer := { w with
      starts := w.starts.setIfInBounds depth w.head.words
      pending := some ⟨w.head.words + fragment.words - 1, w.head.bytes⟩
      head := w.head + Mark.ofWords fragment.words
      fragmentsWritten := w.fragmentsWritten + 1 } }

def openFragment (p : Pipe) (fragment : Fragment) (depth : Nat) : Pipe :=
  let p := p.storeTrailer
  let p := if fragment.startsMessage then p.stampMessage fragment.start else p
  p.claimFragment fragment depth

/-- Open the fragment that begins at a script position, with room for some bytes. The answer is
`false` when the ring is full. -/
def openAt (p : Pipe) (cursor : Int) (bytes : Nat) : Except Fault Bool × Pipe :=
  match p.schema.fragment? cursor with
  | none => (.error (.error (.noFragmentAt cursor)), p)
  | some fragment =>
    let (room, p) := p.roomFor ⟨fragment.words, bytes⟩
    if room then
      let depth := if fragment.startsMessage then 0 else fragment.depth
      if depth < p.producer.starts.size then (.ok true, p.openFragment fragment depth)
      else (.error .outOfRange, p)
    else (.ok false, p)

def stampMarker (p : Pipe) : Pipe :=
  let start := p.producer.head.words
  let size := distance p.schema.markerWords
  { p with
    ring := (p.ring.setWord (start + p.schema.idDistance) (-1)).setWord (start + size - 1) 0
    producer := { p.producer with head := p.producer.head + Mark.ofWords size } }

def publishMarker (p : Pipe) : Bool × Pipe :=
  let p := p.storeTrailer
  let (room, p) := p.roomFor (.ofWords (distance p.schema.markerWords))
  if room then (true, p.rebaseWrites.stampMarker.publish) else (false, p)

/-- Store a word past the producer's head without claiming it. -/
def storeAhead (p : Pipe) (offset : Nat) (value : Int32) : Pipe :=
  { p with ring := p.ring.setWord (p.producer.head.words + offset) value }

def claim (p : Pipe) (words : Nat) : Except Fault Unit × Pipe :=
  let (room, p) := p.roomFor (.ofWords words)
  if room then
    let p := p.storeTrailer
    let w := p.producer
    (.ok (), { p with producer := { w with head := w.head + Mark.ofWords words } })
  else
    (.error (.error (.overrun .structured (p.producer.head.words + words)
      (p.producer.seenTail.words + p.ring.capacity.words))), p)

def storeWords (p : Pipe) (loc : Locator) (words : List Int32) : Except Fault Unit × Pipe :=
  match p.producer.position? loc with
  | none => (.error .outOfRange, p)
  | some position => (.ok (), { p with ring := p.ring.setWords position words })

/-- The furthest byte a span may reach, counted from its message. -/
def maxSpan : Nat := Int32.maxValue.toNatClampNeg

/-- Append bytes to the byte channel and record their span in the field: where they begin, counted
from their message, and how many they are. -/
def storeBytes (p : Pipe) (loc : Locator) (data : List UInt8) : Except Fault Unit × Pipe :=
  let length := data.length
  let (room, p) := p.roomFor (.ofBytes length)
  let w := p.producer
  let relative := w.head.bytes - w.byteBase
  if !room then
    (.error (.error (.overrun .byte (w.head.bytes + length)
      (w.seenTail.bytes + p.ring.capacity.bytes))), p)
  else if maxSpan < relative + length then
    (.error (.error (.overrun .byte (relative + length) maxSpan)), p)
  else if loc.depth < w.starts.size then
    let p := { p with
      ring := p.ring.setBytes w.head.bytes data
      producer := { w with head := w.head + Mark.ofBytes length } }
    p.storeWords loc [Int32.ofNat relative, Int32.ofNat length]
  else (.error .outOfRange, p)

def write (p : Pipe) (loc : Locator) : Value → Except Fault Unit × Pipe
  | .word value => p.storeWords loc [value]
  | .long value => p.storeWords loc [Long.high value, Long.low value]
  | .decimal exponent mantissa =>
    p.storeWords loc [exponent, Long.high mantissa, Long.low mantissa]
  | .bytes data => p.storeBytes loc data

theorem ring_roomFor (p : Pipe) (request : Mark) : (p.roomFor request).2.ring = p.ring := by
  unfold roomFor
  split <;> rfl

end Pipe

end FragmentPipe
