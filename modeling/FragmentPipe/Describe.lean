import FragmentPipe.Pipe.Basic
import FragmentPipe.Text.Quoted
import FragmentPipe.Text.Record

set_option autoImplicit false

namespace FragmentPipe

open Text (Style)

def RingSize.describe (style : Style) (s : RingSize) : String :=
  Text.record style "ChannelSizes"
    [("word_bits", toString s.wordBits), ("byte_bits", toString s.byteBits)] false

def Config.describe (style : Style) (c : Config) : String :=
  Text.record style "PipeConfig"
    [("word_bits", toString c.size.wordBits), ("byte_bits", toString c.size.byteBits),
      ("batch_release", toString c.batchRelease)] false

def Ring.describe (style : Style) (r : Ring) : String :=
  Text.record style "RingStore"
    [("capacity", toString r.capacity.words), ("byte_capacity", toString r.capacity.bytes),
      ("head", toString r.head.words), ("tail", toString r.tail.words),
      ("bytes_head", toString r.head.bytes), ("bytes_tail", toString r.tail.bytes)] false

def Producer.describe (style : Style) (w : Producer) : String :=
  Text.record style "Producer"
    [("working_head", toString w.head.words), ("bytes_working_head", toString w.head.bytes),
      ("bytes_write_base", toString w.byteBase),
      ("fragments_written", toString w.fragmentsWritten),
      ("messages_written", toString w.messagesWritten)] true

def Consumer.describe (style : Style) (c : Consumer) : String :=
  Text.record style "Consumer"
    [("cursor", toString (positionValue c.cursor)),
      ("next_cursor", toString (positionValue c.nextCursor)),
      ("message_id", toString (positionValue c.messageId)),
      ("working_tail", toString c.tail.words),
      ("next_working_tail", toString c.next),
      ("sequence_depth", toString c.sequences.depth),
      ("release_count", toString c.releaseCount)] true

def Pipe.describe (style : Style) (p : Pipe) : String :=
  Text.record style "Pipe"
    [("ring", p.ring.describe style), ("producer", p.producer.describe style),
      ("consumer", p.consumer.describe style), ("config", p.config.describe style)] false

def Entry.describe (position : Nat) (e : Entry) : String :=
  toString position ++ ":" ++ e.token.describe ++ "(" ++ e.name ++ ")"

def Schema.describe (style : Style) (s : Schema) : String :=
  let script := s.entries.toList.mapIdx fun i e => Text.quoted (e.describe i)
  Text.record style "Schema"
    [("script", Text.list style script),
      ("message_starts", Text.list style (s.messageStarts.map toString)),
      ("max_fragment_depth", toString s.maxFragmentDepth),
      ("max_fragment_size", toString s.maxFragmentWords)] false

/-- One word with its position, in decimal and hexadecimal; an arrow points at `focus`. -/
def windowLine (focus position : Nat) (word : Int32) : String :=
  (if position = focus then "->" else "  ") ++ " " ++ Text.padLeft ' ' 10 (toString position) ++ " "
    ++ Text.padLeft ' ' 12 (toString word.toInt) ++ " 0x" ++ Text.hex 8 word.toUInt32.toNat ++ "\n"

def RingWindow.describe (focus : Nat) (w : RingWindow) : String :=
  String.join (w.words.mapIdx fun i word => windowLine focus (w.start + i) word)

end FragmentPipe
