import FragmentPipe.Channel
import FragmentPipe.Mark

set_option autoImplicit false

/-!
# The ring shared by the two halves of a pipe

A ring has a channel of structured words and a channel of bytes. The published head is moved by the
producer alone and the released tail by the consumer alone. What lies from tail to head is published
and not yet released; the producer may fill up to one capacity past the tail.
-/
namespace FragmentPipe

structure RingWindow where
  start : Nat
  words : List Int32
deriving DecidableEq, Repr

structure Ring where
  words : Channel Int32
  bytes : Channel UInt8
  head : Mark
  tail : Mark

namespace Ring

def blank (wordBits byteBits : Nat) : Ring :=
  ⟨.blank wordBits 0, .blank byteBits 0, .origin, .origin⟩

def capacity (r : Ring) : Mark := ⟨r.words.capacity, r.bytes.capacity⟩

def word (r : Ring) (position : Nat) : Int32 := r.words.get position

def byte (r : Ring) (position : Nat) : UInt8 := r.bytes.get position

def setWord (r : Ring) (position : Nat) (value : Int32) : Ring :=
  { r with words := r.words.set position value }

def setWords (r : Ring) (position : Nat) (values : List Int32) : Ring :=
  { r with words := r.words.write position values }

def setBytes (r : Ring) (position : Nat) (data : List UInt8) : Ring :=
  { r with bytes := r.bytes.write position data }

/-- Words on either side of `center`, cut at position zero and at one capacity. -/
def window (r : Ring) (center radius : Nat) : RingWindow :=
  let start := center - radius
  let stop := min (center + radius) (start + r.capacity.words)
  ⟨start, r.words.read start (stop - start)⟩

def used (r : Ring) : Mark := ⟨r.head.words - r.tail.words, r.head.bytes - r.tail.bytes⟩

def free (r : Ring) : Mark :=
  ⟨r.capacity.words - r.used.words, r.capacity.bytes - r.used.bytes⟩

def clear (r : Ring) : Ring := ⟨r.words.erase 0, r.bytes.erase 0, .origin, .origin⟩

@[simp] theorem capacity_setWord (r : Ring) (position : Nat) (value : Int32) :
    (r.setWord position value).capacity = r.capacity := by
  simp [capacity, setWord]

@[simp] theorem capacity_setWords (r : Ring) (position : Nat) (values : List Int32) :
    (r.setWords position values).capacity = r.capacity := by
  simp [capacity, setWords]

@[simp] theorem capacity_setBytes (r : Ring) (position : Nat) (data : List UInt8) :
    (r.setBytes position data).capacity = r.capacity := by
  simp [capacity, setBytes]

@[simp] theorem capacity_clear (r : Ring) : r.clear.capacity = r.capacity := by
  simp [capacity, clear]

@[simp] theorem word_setWord_self (r : Ring) (position : Nat) (value : Int32) :
    (r.setWord position value).word position = value :=
  r.words.get_set_self position value

end Ring

end FragmentPipe
