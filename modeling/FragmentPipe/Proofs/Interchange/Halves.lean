import FragmentPipe.Proofs.Writer.Effects

set_option autoImplicit false

namespace FragmentPipe

namespace Pipe

/-- The same ring and producer with the script and the reader changed. -/
def recast (f : Schema → Schema) (g : Consumer → Consumer) (p : Pipe) : Pipe :=
  { p with schema := f p.schema, consumer := g p.consumer }

def recasting {α : Type} (f : Schema → Schema) (g : Consumer → Consumer) (result : α × Pipe) :
    α × Pipe :=
  (result.1, result.2.recast f g)

section Writing

variable (f : Schema → Schema) (g : Consumer → Consumer) (p : Pipe)

@[simp]
theorem producer_recast : (p.recast f g).producer = p.producer := rfl

theorem roomFor_recast (request : Mark) :
    (p.recast f g).roomFor request = recasting f g (p.roomFor request) := by
  unfold roomFor
  by_cases hfits : p.producer.fits p.ring.capacity request = true
  · rw [if_pos hfits, if_pos (by exact hfits)]
    rfl
  · rw [if_neg hfits, if_neg (by exact hfits)]
    rfl

theorem storeTrailer_recast : (p.recast f g).storeTrailer = p.storeTrailer.recast f g := by
  unfold storeTrailer
  rw [producer_recast]
  cases p.producer.pending <;> rfl

theorem publish_recast : (p.recast f g).publish = p.publish.recast f g := by
  unfold publish
  rw [storeTrailer_recast]
  rfl

theorem claim_recast (words : Nat) :
    (p.recast f g).claim words = recasting f g (p.claim words) := by
  unfold claim
  simp only [roomFor_recast, recasting]
  generalize p.roomFor (.ofWords words) = result
  obtain ⟨room, q⟩ := result
  cases room with
  | false => rfl
  | true =>
    simp only [↓reduceIte, storeTrailer_recast]
    rfl

theorem storeWords_recast (loc : Locator) (words : List Int32) :
    (p.recast f g).storeWords loc words = recasting f g (p.storeWords loc words) := by
  unfold storeWords
  rw [producer_recast]
  cases p.producer.position? loc <;> rfl

theorem storeBytes_recast (loc : Locator) (data : List UInt8) :
    (p.recast f g).storeBytes loc data = recasting f g (p.storeBytes loc data) := by
  unfold storeBytes
  simp only [roomFor_recast, recasting]
  generalize p.roomFor (.ofBytes data.length) = result
  obtain ⟨room, q⟩ := result
  cases room with
  | false => rfl
  | true =>
    simp only [Bool.not_true, Bool.false_eq_true, ↓reduceIte]
    rw [producer_recast]
    split
    · rfl
    · split
      · exact storeWords_recast f g (q.appendBytes data) loc _
      · rfl

theorem write_recast (loc : Locator) (value : Value) :
    (p.recast f g).write loc value = recasting f g (p.write loc value) := by
  cases value with
  | word value => exact p.storeWords_recast f g loc _
  | long value => exact p.storeWords_recast f g loc _
  | decimal exponent mantissa => exact p.storeWords_recast f g loc _
  | bytes data => exact p.storeBytes_recast f g loc data

theorem append_recast (c : Consumer) (transfer : Ring → Mark → Ring) :
    (p.recast f g).append c transfer = (p.append c transfer).recast f g := by
  unfold append
  rw [← publish_recast, p.publish_recast]
  cases c.isNewMessage <;> rfl

theorem accept_recast (c : Consumer) (transfer : Ring → Mark → Ring) :
    (p.recast f g).accept c transfer = recasting f g (p.accept c transfer) := by
  unfold accept
  cases c.hasFragment with
  | false => rfl
  | true =>
    simp only [↓reduceIte, roomFor_recast, recasting]
    generalize p.roomFor c.extent = result
    obtain ⟨room, q⟩ := result
    cases room with
    | false => rfl
    | true => exact congrArg (Prod.mk _) (append_recast f g q c transfer)

end Writing

section Preamble

variable (f : Schema → Schema) (g : Consumer → Consumer) {p : Pipe}
  (hoffset : (f p.schema).templateOffset = p.schema.templateOffset)

include hoffset

theorem stampMessage_recast (id : Nat) :
    (p.recast f g).stampMessage id = (p.stampMessage id).recast f g := by
  have hid : (f p.schema).idDistance = p.schema.idDistance := congrArg distance hoffset
  simp only [stampMessage, rebaseWrites, recast, hid]

theorem stampMarker_recast : (p.recast f g).stampMarker = p.stampMarker.recast f g := by
  have hid : (f p.schema).idDistance = p.schema.idDistance := congrArg distance hoffset
  have hmarker : (f p.schema).markerWords = p.schema.markerWords := congrArg (· + 2) hoffset
  simp only [stampMarker, recast, hid, hmarker]

theorem openFragment_recast (fragment : Fragment) (depth : Nat) :
    (p.recast f g).openFragment fragment depth = (p.openFragment fragment depth).recast f g := by
  have hoffset' : (f p.storeTrailer.schema).templateOffset =
      p.storeTrailer.schema.templateOffset := by rw [p.schema_storeTrailer, hoffset]
  unfold openFragment
  rw [storeTrailer_recast]
  cases fragment.startsMessage with
  | false => rfl
  | true =>
    simp only [↓reduceIte, stampMessage_recast f g hoffset']
    rfl

theorem publishMarker_recast :
    (p.recast f g).publishMarker = recasting f g p.publishMarker := by
  have hmarker : (f p.storeTrailer.schema).markerWords = p.storeTrailer.schema.markerWords := by
    rw [p.schema_storeTrailer]
    exact congrArg (· + 2) hoffset
  unfold publishMarker
  rw [storeTrailer_recast]
  simp only [show (p.storeTrailer.recast f g).schema = f p.storeTrailer.schema from rfl, hmarker,
    roomFor_recast, recasting]
  have hkeeps := p.keepsConsumer_storeTrailer.trans
    (p.storeTrailer.keepsConsumer_roomFor (.ofWords (distance p.storeTrailer.schema.markerWords)))
  generalize p.storeTrailer.roomFor _ = result at hkeeps ⊢
  obtain ⟨room, q⟩ := result
  have hq : (f q.rebaseWrites.schema).templateOffset = q.rebaseWrites.schema.templateOffset := by
    rw [show q.rebaseWrites.schema = p.schema from hkeeps.schema, hoffset]
  cases room with
  | false => rfl
  | true =>
    show (true, (q.rebaseWrites.recast f g).stampMarker.publish) = _
    rw [stampMarker_recast f g hq, publish_recast]
    rfl

end Preamble

def relocate (f : Schema → Schema) (next : Option Nat → Option Nat)
    (sequences : SequenceStack Nat → SequenceStack Nat) (p : Pipe) : Pipe :=
  p.recast f fun c =>
    { c with nextCursor := next c.nextCursor, sequences := sequences c.sequences }

def relocating {α : Type} (f : Schema → Schema) (next : Option Nat → Option Nat)
    (sequences : SequenceStack Nat → SequenceStack Nat) (result : α × Pipe) : α × Pipe :=
  (result.1, result.2.relocate f next sequences)

section Looking

variable (f : Schema → Schema) (next : Option Nat → Option Nat)
  (sequences : SequenceStack Nat → SequenceStack Nat) (p : Pipe)

theorem isVisible_relocate (target : Nat) :
    (p.relocate f next sequences).isVisible target =
      relocating f next sequences (p.isVisible target) := by
  unfold isVisible
  by_cases hseen : target ≤ p.consumer.seenHead
  · rw [if_pos hseen, if_pos (by exact hseen)]
    rfl
  · rw [if_neg hseen, if_neg (by exact hseen)]
    rfl

theorem await_relocate (start size : Nat) :
    (p.relocate f next sequences).await start size =
      relocating f next sequences (p.await start size) := by
  unfold await
  simp only [isVisible_relocate, relocating]
  generalize p.isVisible (start + size) = result
  obtain ⟨visible, q⟩ := result
  cases visible with
  | true => rfl
  | false =>
    by_cases hsplit : start < q.consumer.seenHead
    · rw [if_neg Bool.false_ne_true, if_neg Bool.false_ne_true, if_pos hsplit,
        if_pos (by exact hsplit)]
      rfl
    · rw [if_neg Bool.false_ne_true, if_neg Bool.false_ne_true, if_neg hsplit,
        if_neg (by exact hsplit)]

theorem releaseBatch_relocate :
    (p.relocate f next sequences).releaseBatch = p.releaseBatch.relocate f next sequences := by
  unfold releaseBatch
  by_cases hdue : p.consumer.batchCountdown ≤ 0
  · rw [if_pos hdue, if_pos (by exact hdue)]
    rfl
  · rw [if_neg hdue, if_neg (by exact hdue)]

theorem releaseNow_relocate :
    (p.relocate f next sequences).releaseNow = p.releaseNow.relocate f next sequences := by
  unfold releaseNow
  by_cases hheld : p.consumer.batchCountdown ≠ p.consumer.batchRelease ∨
      p.ring.tail.words ≠ p.consumer.tail.words
  · rw [if_pos hheld, if_pos (by exact hheld)]
    rfl
  · rw [if_neg hheld, if_neg (by exact hheld)]

theorem skip_relocate (words : Nat) :
    (p.relocate f next sequences).skip words = relocating f next sequences (p.skip words) := by
  have hnext : (p.relocate f next sequences).consumer.next = p.consumer.next := rfl
  unfold skip
  rw [hnext]
  simp only [isVisible_relocate, relocating]
  generalize p.isVisible (p.consumer.next + words) = result
  obtain ⟨visible, q⟩ := result
  cases visible <;> rfl

end Looking

end Pipe

end FragmentPipe
