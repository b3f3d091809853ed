import FragmentPipe.Error
import FragmentPipe.Schema.Basic

set_option autoImplicit false

namespace FragmentPipe

inductive TemplateId where
  | message (id : Nat)
  | endOfStream
deriving DecidableEq, Repr

namespace Ring

def diagnosticRadius : Nat := 16

/-- A negative id and the script length mark the end of the stream; any other id must be the script
position of a message. -/
def classifyId (r : Ring) (schema : Schema) (id : Int32) (position : Nat) :
    Except PipeError TemplateId :=
  if id.toInt < 0 || id.toInt == schema.size then .ok .endOfStream
  else if schema.isMessageStart id.toInt then .ok (.message id.toInt.toNat)
  else .error (.unknownTemplate id position schema.messageStarts
    (r.window position diagnosticRadius))

/-- A byte count below zero or past one capacity cannot stem from any write. -/
def trailerAt (r : Ring) (position : Nat) : Except PipeError Nat :=
  let count := r.word position
  if 0 ≤ count.toInt && count.toInt ≤ r.capacity.bytes then .ok count.toInt.toNat
  else .error (.badTrailer position count r.capacity.bytes (r.window position diagnosticRadius))

def lengthAt (r : Ring) (position : Nat) : Except PipeError Nat :=
  let length := r.word position
  if 0 ≤ length.toInt then .ok length.toInt.toNat
  else .error (.negativeLength position length)

end Ring

def PipeError.ofSplit (start size head : Nat) : PipeError :=
  .splitFragment start size (head - start)

end FragmentPipe
