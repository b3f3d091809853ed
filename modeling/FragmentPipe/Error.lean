import FragmentPipe.Ring
import FragmentPipe.Schema.Error

set_option autoImplicit false

/-!
# What can go wrong with a pipe

Running out of data or of room is no error: an operation that cannot proceed answers `false`. Errors
are refused configurations, misuse, and streams that can no longer be trusted.
-/
namespace FragmentPipe

inductive ChannelName where
  | structured
  | byte
deriving DecidableEq, Repr

def ChannelName.text : ChannelName → String
  | .structured => "structured"
  | .byte => "byte"

def minChannelBits : Nat := 1

def maxChannelBits : Nat := 30

inductive ConfigFault where
  | channelBits (channel : ChannelName) (bits : Nat)
  | batchRelease (fragments : Int)
  | tooSmall (capacity largest : Nat)
deriving DecidableEq, Repr

def ConfigFault.message : ConfigFault → String
  | .channelBits channel bits =>
    channel.text ++ " channel bits must be in " ++ toString minChannelBits ++ "..="
      ++ toString maxChannelBits ++ ", got " ++ toString bits
  | .batchRelease fragments => "batch_release must be at least 1, got " ++ toString fragments
  | .tooSmall capacity largest =>
    "structured channel of " ++ toString capacity ++ " words cannot hold a " ++ toString largest
      ++ " word fragment"

def RingWindow.message (w : RingWindow) : String :=
  "ring window from " ++ toString w.start ++ ": "
    ++ Text.bracketed (w.words.map fun word => toString word.toInt)

inductive PipeError where
  | invalidConfig (fault : ConfigFault)
  | script (error : ScriptError)
  | badTrailer (position : Nat) (count : Int32) (limit : Nat) (window : RingWindow)
  | unknownTemplate (id : Int32) (position : Nat) (valid : List Nat) (window : RingWindow)
  | splitFragment (position needed visible : Nat)
  | negativeLength (position : Nat) (length : Int32)
  | noFragmentAt (cursor : Int)
  | overrun (channel : ChannelName) (requested limit : Nat)
  | nothingPrepared
  | foreignHalf
deriving DecidableEq, Repr

namespace PipeError

def message : PipeError → String
  | .invalidConfig fault => "invalid pipe configuration: " ++ fault.message
  | .script error => error.message
  | .badTrailer position count limit window =>
    "bad fragment start at position " ++ toString position ++ ": trailer byte count "
      ++ toString count.toInt ++ " outside 0..=" ++ toString limit ++ " (" ++ window.message ++ ")"
  | .unknownTemplate id position valid window =>
    "malformed template id " ++ toString id.toInt ++ " at position " ++ toString position
      ++ ", expected one of " ++ Text.bracketed (valid.map toString)
      ++ " (" ++ window.message ++ ")"
  | .splitFragment position needed visible =>
    "partial fragment published: fragment at " ++ toString position ++ " needs "
      ++ toString needed ++ " words but only " ++ toString visible ++ " are visible"
  | .negativeLength position length =>
    "negative sequence length " ++ toString length.toInt ++ " at position " ++ toString position
  | .noFragmentAt cursor =>
    "script position " ++ toString cursor ++ " does not begin a fragment"
  | .overrun channel requested limit =>
    channel.text ++ " channel overrun: position " ++ toString requested ++ " exceeds limit "
      ++ toString limit
  | .nothingPrepared => "no fragment is active on the read side"
  | .foreignHalf => "producer and consumer belong to different pipes"

/-- Errors that lie in the stream itself; the others lie in the call. -/
def isCorruption : PipeError → Bool
  | .badTrailer .. | .unknownTemplate .. | .splitFragment .. | .negativeLength .. => true
  | _ => false

end PipeError

/-- Why a call has no result: an error it reports, or a locator or table position out of range. -/
inductive Fault where
  | error (cause : PipeError)
  | outOfRange
deriving DecidableEq, Repr

end FragmentPipe
