import FragmentPipe.Network

set_option autoImplicit false

/-!
# A pipe without remembered counters

The operations of a pipe as they would be if neither half remembered anything of the other. Room and
visibility are decided by the counters of the ring, and the errors show those counters. Whatever a
pipe does without asking for room or visibility, it does here as well. What a half has seen last is
neither looked at nor changed, and `Pipe.forget` takes it out of a state.
-/
namespace FragmentPipe

/-- The pipe as if neither half had ever looked at the other. -/
def Pipe.forget (p : Pipe) : Pipe :=
  { p with
    producer := { p.producer with seenTail := .origin }
    consumer := { p.consumer with seenHead := 0 } }

namespace Direct

section Writing

def roomFor (p : Pipe) (request : Mark) : Bool :=
  p.producer.head + request ≤ p.ring.tail + p.ring.capacity

def openAt (p : Pipe) (cursor : Int) (bytes : Nat) : Except Fault Bool × Pipe :=
  match p.schema.fragment? cursor with
  | none => (.error (.error (.noFragmentAt cursor)), p)
  | some fragment =>
    if roomFor p ⟨fragment.words, bytes⟩ then
      let depth := if fragment.startsMessage then 0 else fragment.depth
      if depth < p.producer.starts.size then (.ok true, p.openFragment fragment depth)
      else (.error .outOfRange, p)
    else (.ok false, p)

def publishMarker (p : Pipe) : Bool × Pipe :=
  let p := p.storeTrailer
  if roomFor p (.ofWords (distance p.schema.markerWords)) then
    (true, p.rebaseWrites.stampMarker.publish)
  else (false, p)

def claim (p : Pipe) (words : Nat) : Except Fault Unit × Pipe :=
  if roomFor p (.ofWords words) then
    let p := p.storeTrailer
    let w := p.producer
    (.ok (), { p with producer := { w with head := w.head + Mark.ofWords words } })
  else
    (.error (.error (.overrun .structured (p.producer.head.words + words)
      (p.ring.tail.words + p.ring.capacity.words))), p)

def storeBytes (p : Pipe) (loc : Locator) (data : List UInt8) : Except Fault Unit × Pipe :=
  let length := data.length
  let w := p.producer
  let relative := w.head.bytes - w.byteBase
  if !roomFor p (.ofBytes length) then
    (.error (.error (.overrun .byte (w.head.bytes + length)
      (p.ring.tail.bytes + p.ring.capacity.bytes))), p)
  else if Pipe.maxSpan < relative + length then
    (.error (.error (.overrun .byte (relative + length) Pipe.maxSpan)), p)
  else if loc.depth < w.starts.size then
    let p := { p with
      ring := p.ring.setBytes w.head.bytes data
      producer := { w with head := w.head + Mark.ofBytes length } }
    p.storeWords loc [Int32.ofNat relative, Int32.ofNat length]
  else (.error .outOfRange, p)

def write (p : Pipe) (loc : Locator) : Value → Except Fault Unit × Pipe
  | .word value => p.storeWords loc [value]
  | .long value => p.storeWords loc [Long.high value, Long.low value]
  | .decimal exponent mantissa =>
    p.storeWords loc [exponent, Long.high mantissa, Long.low mantissa]
  | .bytes data => storeBytes p loc data

def accept (p : Pipe) (c : Consumer) (transfer : Ring → Mark → Ring) : Except Fault Bool × Pipe :=
  if c.hasFragment then
    if roomFor p c.extent then (.ok true, p.append c transfer) else (.ok false, p)
  else (.error (.error .nothingPrepared), p)

def relayFrom (p source : Pipe) : Except Fault Bool × Pipe :=
  accept p source.consumer fun ring => ring.copyPrepared source.ring source.consumer

def relayWithin (p : Pipe) : Except Fault Bool × Pipe :=
  accept p p.consumer fun ring => ring.repeatPrepared p.consumer

end Writing

section Reading

def isVisible (p : Pipe) (target : Nat) : Bool := target ≤ p.ring.head.words

def await (p : Pipe) (start size : Nat) : Except PipeError Bool :=
  if isVisible p (start + size) then .ok true
  else if start < p.ring.head.words then .error (.ofSplit start size p.ring.head.words)
  else .ok false

def prepare (p : Pipe) (start : Nat) (item : ReadItem) : Except Fault Bool × Pipe :=
  match await p start (item.words p.schema) with
  | .error cause => (.error (.error cause), p)
  | .ok false => (.ok false, p)
  | .ok true =>
    match p.inspect start item with
    | .error fault => (.error fault, p)
    | .ok bytes =>
      match p.commit start item bytes with
      | some p => (.ok true, p)
      | none => (.error .outOfRange, p)

def readMessage (p : Pipe) : Except Fault Bool × Pipe :=
  let start := p.consumer.next
  match await p start (p.schema.idDistance + 1) with
  | .error cause => (.error (.error cause), p)
  | .ok false => (.ok false, p)
  | .ok true =>
    let position := start + p.schema.idDistance
    match p.ring.classifyId p.schema (p.ring.word position) position with
    | .error cause => (.error (.error cause), p)
    | .ok id =>
      match p.itemOf? id with
      | some item => prepare p start item
      | none => (.error .outOfRange, p)

def readContinuation (p : Pipe) : Except Fault Bool × Pipe :=
  let cursor := positionValue p.consumer.nextCursor
  let due := if p.isMessageDue then none else p.schema.fragment? cursor
  match due with
  | none => (.error (.error (.noFragmentAt cursor)), p)
  | some fragment => prepare p p.consumer.next (.continuation fragment)

def read (p : Pipe) : Except Fault Bool × Pipe :=
  if p.isMessageDue then readMessage p else readContinuation p

def skip (p : Pipe) (words : Nat) : Except Fault Unit × Pipe :=
  let requested := p.consumer.next + words
  let c := p.consumer
  if isVisible p requested then
    (.ok (), { p with
      consumer := { c with
        tail := ⟨requested, c.tail.bytes + c.fragmentBytes⟩
        next := requested
        fragmentBytes := 0
        hasFragment := false } })
  else (.error (.error (.overrun .structured requested p.ring.head.words)), p)

end Reading

def run (p : Pipe) : Command → Except Fault Reply × Pipe
  | .openAt cursor bytes => Pipe.replying .flag (openAt p cursor bytes)
  | .write loc value => Pipe.replying (fun _ => .done) (write p loc value)
  | .storeAhead offset value => (.ok .done, p.storeAhead offset value)
  | .claim words => Pipe.replying (fun _ => .done) (claim p words)
  | .publish => (.ok .done, p.publish)
  | .publishMarker => Pipe.answering (publishMarker p)
  | .rebaseWrites => (.ok .done, p.rebaseWrites)
  | .roomFor request => (.ok (.flag (roomFor p request)), p)
  | .isVisible target => (.ok (.flag (isVisible p target)), p)
  | .read => Pipe.replying .flag (read p)
  | .readMessage => Pipe.replying .flag (readMessage p)
  | .readContinuation => Pipe.replying .flag (readContinuation p)
  | .releaseNow => (.ok .done, p.releaseNow)
  | .rebaseReads => (.ok .done, p.rebaseReads)
  | .skip words => Pipe.replying (fun _ => .done) (skip p words)
  | .reset => (.ok .done, p.reset)

def step (n : Network) (s : Step) : Except Fault Reply × Network :=
  match s with
  | .command i command =>
    match n.pipes[i]? with
    | none => (.error .outOfRange, n)
    | some p =>
      let (reply, p) := run p command
      (reply, ⟨n.pipes.setIfInBounds i p⟩)
  | .query i query =>
    match n.pipes[i]? with
    | none => (.error .outOfRange, n)
    | some p => (p.ask query, n)
  | .relay source target =>
    match n.pipes[source]?, n.pipes[target]? with
    | some origin, some p =>
      let (reply, p) :=
        Pipe.replying .flag (if source = target then relayWithin p else relayFrom p origin)
      (reply, ⟨n.pipes.setIfInBounds target p⟩)
    | _, _ => (.error .outOfRange, n)
  | .join producer consumer =>
    if producer = consumer then (.ok .done, n) else (.error (.error .foreignHalf), n)

end Direct

end FragmentPipe
