import FragmentPipe.Error
import FragmentPipe.Schema.Basic

set_option autoImplicit false

namespace FragmentPipe

structure RingSize where
  wordBits : Nat
  byteBits : Nat
deriving DecidableEq, Repr

namespace RingSize

def wordCapacity (s : RingSize) : Nat := 1 <<< s.wordBits

def byteCapacity (s : RingSize) : Nat := 1 <<< s.byteBits

def footprint (s : RingSize) : Nat := s.wordCapacity * 4 + s.byteCapacity

def bitsAllowed (bits : Nat) : Bool := minChannelBits ≤ bits && bits ≤ maxChannelBits

/-- The structured channel is checked first. -/
def validate (s : RingSize) : Except ConfigFault Unit :=
  if !bitsAllowed s.wordBits then .error (.channelBits .structured s.wordBits)
  else if !bitsAllowed s.byteBits then .error (.channelBits .byte s.byteBits)
  else .ok ()

def allocate (s : RingSize) : Except ConfigFault Ring := do
  s.validate
  .ok (Ring.blank s.wordBits s.byteBits)

end RingSize

structure Config where
  size : RingSize
  batchRelease : Int
deriving DecidableEq, Repr

namespace Config

def standard : Config := ⟨⟨12, 14⟩, 1⟩

def largestFor (schema : Schema) : Nat := distance (max schema.maxFragmentWords schema.markerWords)

/-- Sizes come before the release policy, and that before the largest fragment. -/
def validate (c : Config) (schema : Schema) : Except ConfigFault Unit := do
  c.size.validate
  if c.batchRelease < 1 then .error (.batchRelease c.batchRelease)
  else if c.size.wordCapacity < largestFor schema then
    .error (.tooSmall c.size.wordCapacity (largestFor schema))
  else .ok ()

end Config

end FragmentPipe
