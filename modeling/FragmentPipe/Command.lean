import FragmentPipe.Describe
import FragmentPipe.Pipe.Fields
import FragmentPipe.Pipe.Relay

set_option autoImplicit false

namespace FragmentPipe

inductive Reply where
  | done
  | flag (value : Bool)
  | integer (value : Int)
  | absent
  | list (values : List Int)
  | value (value : Value)
  | counted (count : Nat) (data : List UInt8)
  | text (value : String)
  | window (value : RingWindow)
  | endOfStream
deriving DecidableEq, Repr

inductive Command where
  | openAt (cursor : Int) (bytes : Nat)
  | write (loc : Locator) (value : Value)
  | storeAhead (offset : Nat) (value : Int32)
  | claim (words : Nat)
  | publish
  | publishMarker
  | rebaseWrites
  | roomFor (request : Mark)
  | isVisible (target : Nat)
  | read
  | readMessage
  | readContinuation
  | releaseNow
  | rebaseReads
  | skip (words : Nat)
  | reset
deriving DecidableEq, Repr

inductive Subject where
  | ring
  | producer
  | consumer
  | schema
  | config
  | pipe
deriving DecidableEq, Repr

inductive Query where
  | value (loc : Locator) (shape : Shape)
  | length (loc : Locator)
  | bytes (loc : Locator) (buffer : List UInt8)
  | text (loc : Locator)
  | fragmentStart (depth : Nat)
  | wordAt (position : Nat)
  | byteAt (position : Nat)
  | bytesAt (position count : Nat)
  | window (center radius : Nat)
  | windowText (center radius focus : Nat)
  | occupancy
  | classifyId (id : Int32) (position : Nat)
  | trailerAt (position : Nat)
  | lengthAt (position : Nat)
  | split (start size head : Nat)
  | settings
  | describe (subject : Subject) (style : Text.Style)
deriving DecidableEq, Repr

def TemplateId.reply : TemplateId → Reply
  | .message id => .integer id
  | .endOfStream => .endOfStream

namespace Pipe

def replying {α : Type} (reply : α → Reply) (result : Except Fault α × Pipe) :
    Except Fault Reply × Pipe :=
  (result.1.map reply, result.2)

def answering (result : Bool × Pipe) : Except Fault Reply × Pipe := (.ok (.flag result.1), result.2)

def run (p : Pipe) : Command → Except Fault Reply × Pipe
  | .openAt cursor bytes => replying .flag (p.openAt cursor bytes)
  | .write loc value => replying (fun _ => .done) (p.write loc value)
  | .storeAhead offset value => (.ok .done, p.storeAhead offset value)
  | .claim words => replying (fun _ => .done) (p.claim words)
  | .publish => (.ok .done, p.publish)
  | .publishMarker => answering p.publishMarker
  | .rebaseWrites => (.ok .done, p.rebaseWrites)
  | .roomFor request => answering (p.roomFor request)
  | .isVisible target => answering (p.isVisible target)
  | .read => replying .flag p.read
  | .readMessage => replying .flag p.readMessage
  | .readContinuation => replying .flag p.readContinuation
  | .releaseNow => (.ok .done, p.releaseNow)
  | .rebaseReads => (.ok .done, p.rebaseReads)
  | .skip words => replying (fun _ => .done) (p.skip words)
  | .reset => (.ok .done, p.reset)

def runAll (p : Pipe) (commands : List Command) : Pipe :=
  commands.foldl (fun p command => (p.run command).2) p

def describeSubject (p : Pipe) (style : Text.Style) : Subject → String
  | .ring => p.ring.describe style
  | .producer => p.producer.describe style
  | .consumer => p.consumer.describe style
  | .schema => p.schema.describe style
  | .config => p.config.describe style
  | .pipe => p.describe style

/-- Bits and release policy, then script lengths of both halves and the capacity in words. -/
def settings (p : Pipe) : List Int :=
  [p.config.size.wordBits, p.config.size.byteBits, p.config.batchRelease, p.consumer.batchRelease,
    p.schema.size, p.schema.size, p.ring.capacity.words]

/-- Capacities, then used and free words, then used and free bytes. -/
def occupancy (p : Pipe) : List Int :=
  [p.ring.capacity.words, p.ring.capacity.bytes, p.ring.used.words, p.ring.free.words,
    p.ring.used.bytes, p.ring.free.bytes]

def checked {α : Type} (reply : α → Reply) : Except PipeError α → Except Fault Reply
  | .ok value => .ok (reply value)
  | .error cause => .error (.error cause)

def ask (p : Pipe) : Query → Except Fault Reply
  | .value loc shape => (p.readValue loc shape).map .value
  | .length loc => (p.readLength loc).map fun length => .integer length
  | .bytes loc buffer =>
    (p.readBytes loc buffer.length).map fun data =>
      .counted data.length (data ++ buffer.drop data.length)
  | .text loc => (p.readText loc).map .text
  | .fragmentStart depth =>
    .ok (match p.producer.starts[depth]? with
      | some start => .integer start
      | none => .absent)
  | .wordAt position => .ok (.integer (p.ring.word position).toInt)
  | .byteAt position => .ok (.integer (p.ring.byte position).toNat)
  | .bytesAt position count => .ok (.value (.bytes (p.ring.bytes.read position count)))
  | .window center radius => .ok (.window (p.ring.window center radius))
  | .windowText center radius focus => .ok (.text ((p.ring.window center radius).describe focus))
  | .occupancy => .ok (.list p.occupancy)
  | .classifyId id position => checked TemplateId.reply (p.ring.classifyId p.schema id position)
  | .trailerAt position => checked (fun count => .integer count) (p.ring.trailerAt position)
  | .lengthAt position => checked (fun length => .integer length) (p.ring.lengthAt position)
  | .split start size head => .error (.error (.ofSplit start size head))
  | .settings => .ok (.list p.settings)
  | .describe subject style => .ok (.text (p.describeSubject style subject))

end Pipe

end FragmentPipe
