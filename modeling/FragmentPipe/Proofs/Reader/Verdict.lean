import FragmentPipe.Proofs.Interchange.Memory
import FragmentPipe.Proofs.Reader.Trailers

set_option autoImplicit false

namespace FragmentPipe

def Schema.EndsStream (s : Schema) (id : Int32) : Prop := id.toInt < 0 ∨ id.toInt = s.size

namespace Ring

variable {r : Ring} {s : Schema} {id : Int32}

theorem classifyId_of_endsStream (h : s.EndsStream id) (position : Nat) :
    r.classifyId s id position = .ok .endOfStream := by
  unfold classifyId
  rw [if_pos (by simpa [Schema.EndsStream] using h)]

theorem classifyId_of_isMessageStart {n : Nat} (hid : id.toInt = n)
    (h : s.isMessageStart n = true) (position : Nat) :
    r.classifyId s id position = .ok (.message n) := by
  have hlt := Schema.lt_size_of_isMessageStart h
  unfold classifyId
  rw [hid, if_neg (by simp; omega), if_pos h, Int.toNat_natCast]

theorem classifyId_of_unknown (hends : ¬ s.EndsStream id) (h : s.isMessageStart id.toInt = false)
    (position : Nat) :
    r.classifyId s id position =
      .error (.unknownTemplate id position s.messageStarts
        (r.window position diagnosticRadius)) := by
  unfold classifyId
  rw [if_neg (by simpa [Schema.EndsStream] using hends), if_neg (by simp [h])]

end Ring

namespace Pipe

def idPosition (p : Pipe) : Nat := p.consumer.next + p.schema.idDistance

/-- What is to be read next by the words that are published: what a published id announces, or the
fragment at the cursor. -/
inductive Due (p : Pipe) : ReadItem → Prop where
  | marker (hdue : p.isMessageDue = true) (hid : p.idPosition < p.ring.head.words)
      (hends : p.schema.EndsStream (p.ring.word p.idPosition)) : Due p .marker
  | message {id : Nat} {f : Fragment} (hdue : p.isMessageDue = true)
      (hid : p.idPosition < p.ring.head.words) (hword : (p.ring.word p.idPosition).toInt = id)
      (hstart : p.schema.isMessageStart id = true) (hf : p.schema.fragment? id = some f) :
      Due p (.message f)
  | continuation {cursor : Nat} {f : Fragment} (hdue : p.isMessageDue = false)
      (hcursor : p.consumer.nextCursor = some cursor) (hf : p.schema.fragment? cursor = some f) :
      Due p (.continuation f)

def HasTrailer (p : Pipe) (item : ReadItem) : Prop :=
  0 ≤ (p.ring.word (p.consumer.next + item.words p.schema - 1)).toInt ∧
    (p.ring.word (p.consumer.next + item.words p.schema - 1)).toInt ≤ p.ring.capacity.bytes

/-- A valid item is published where the consumer reads next. -/
structure Complete (p : Pipe) (item : ReadItem) : Prop where
  due : p.Due item
  published : p.consumer.next + item.words p.schema ≤ p.ring.head.words
  trailer : p.HasTrailer item
  length : ∀ f last final, item.fragment? = some f → p.schema.lastOf? f = some (last, final) →
    final.token.isLength = true → 0 ≤ (p.ring.word (p.consumer.next + final.wordDistance)).toInt

/-- What is wrong with the words where the consumer reads next, and how it is reported. -/
inductive Faulty (p : Pipe) : PipeError → Prop where
  | hiddenId (hdue : p.isMessageDue = true) (hstart : p.consumer.next < p.ring.head.words)
      (hid : p.ring.head.words ≤ p.idPosition) :
      Faulty p (.ofSplit p.consumer.next (p.schema.idDistance + 1) p.ring.head.words)
  | unknownId (hdue : p.isMessageDue = true) (hid : p.idPosition < p.ring.head.words)
      (hends : ¬ p.schema.EndsStream (p.ring.word p.idPosition))
      (hword : p.schema.isMessageStart (p.ring.word p.idPosition).toInt = false) :
      Faulty p (.unknownTemplate (p.ring.word p.idPosition) p.idPosition p.schema.messageStarts
        (p.ring.window p.idPosition Ring.diagnosticRadius))
  | split {item : ReadItem} (hitem : p.Due item) (hstart : p.consumer.next < p.ring.head.words)
      (hpart : p.ring.head.words < p.consumer.next + item.words p.schema) :
      Faulty p (.ofSplit p.consumer.next (item.words p.schema) p.ring.head.words)
  | trailer {item : ReadItem} (hitem : p.Due item)
      (hpublished : p.consumer.next + item.words p.schema ≤ p.ring.head.words)
      (htrailer : ¬ p.HasTrailer item) : Faulty p (p.badTrailer p.consumer.next item)
  | length {item : ReadItem} {f : Fragment} {last : Nat} {final : Entry} (hitem : p.Due item)
      (hpublished : p.consumer.next + item.words p.schema ≤ p.ring.head.words)
      (htrailer : p.HasTrailer item) (hf : item.fragment? = some f)
      (hlast : p.schema.lastOf? f = some (last, final)) (hlength : final.token.isLength = true)
      (hword : (p.ring.word (p.consumer.next + final.wordDistance)).toInt < 0) :
      Faulty p (.negativeLength (p.consumer.next + final.wordDistance)
        (p.ring.word (p.consumer.next + final.wordDistance)))

section Verdicts

variable {p : Pipe} {item : ReadItem} {cause : PipeError}

theorem Due.expects (h : p.Due item) : p.Expects item := by
  unfold Expects
  cases h with
  | marker hdue _ hends =>
    rw [if_pos hdue]
    exact ⟨.endOfStream, Ring.classifyId_of_endsStream hends _, rfl⟩
  | @message id f hdue _ hword hstart hf =>
    rw [if_pos hdue]
    refine ⟨.message id, Ring.classifyId_of_isMessageStart hword hstart _, ?_⟩
    simp only [itemOf?, hf, Option.map_some]
  | @continuation cursor f hdue hcursor hf =>
    rw [if_neg (by simp [hdue])]
    exact ⟨hdue, f, by rw [hcursor]; exact hf, rfl⟩

theorem Due.id_lt (h : p.Due item) (hmessage : p.isMessageDue = true) :
    p.idPosition < p.ring.head.words := by
  cases h with
  | marker _ hid _ => exact hid
  | message _ hid _ _ _ => exact hid
  | continuation hdue _ _ => exact absurd hmessage (by simp [hdue])

theorem Due.sits (h : p.Coherent) (hitem : p.Due item) :
    item.Sits p.schema p.consumer.sequences.frames :=
  sits_of_expects h.measured.laidOut h.follows hitem.expects

theorem inspect_of_negativeLength (htrailer : p.HasTrailer item) {f : Fragment} {last : Nat}
    {final : Entry} (hf : item.fragment? = some f) (hlast : p.schema.lastOf? f = some (last, final))
    (hlength : final.token.isLength = true)
    (hword : (p.ring.word (p.consumer.next + final.wordDistance)).toInt < 0) :
    p.inspect p.consumer.next item =
      .error (.error (.negativeLength (p.consumer.next + final.wordDistance)
        (p.ring.word (p.consumer.next + final.wordDistance)))) := by
  unfold inspect
  rw [Ring.trailerAt_of_range htrailer.1 htrailer.2]
  simp only [hf, hlast, hlength, ↓reduceIte, Ring.lengthAt_of_neg hword]

theorem Complete.inspect (h : p.Coherent) (hitem : p.Complete item) :
    ∃ bytes, p.inspect p.consumer.next item = .ok bytes := by
  refine ⟨(p.ring.word (p.consumer.next + item.words p.schema - 1)).toInt.toNat, ?_⟩
  unfold Pipe.inspect
  rw [Ring.trailerAt_of_range hitem.trailer.1 hitem.trailer.2]
  cases hf : item.fragment? with
  | none => rfl
  | some f =>
    obtain ⟨last, final, hlast, -⟩ := p.schema.lastOf?_of_fragment? h.measured.laidOut
      ((hitem.due.sits h).fragment f hf)
    simp only [hlast]
    split
    · rename_i hlength
      rw [Ring.lengthAt_of_nonneg (hitem.length f last final hf hlast hlength)]
    · rfl

/-- A read moves onto a valid item. -/
theorem Complete.read (h : p.Coherent) (hitem : p.Complete item) : p.read.1 = .ok true := by
  obtain ⟨bytes, hinspect⟩ := hitem.inspect h
  obtain ⟨q, hread, -⟩ :=
    read_of_visible h.measured h.follows hitem.due.expects hitem.published hinspect
  rw [hread]

/-- A read reports what is wrong. -/
theorem Faulty.read (h : p.Coherent) (hfaulty : p.Faulty cause) :
    p.read.1 = .error (.error cause) := by
  have hrefused : ∀ {item fault}, p.Due item →
      p.consumer.next + item.words p.schema ≤ p.ring.head.words →
        p.inspect p.consumer.next item = .error fault → p.read.1 = .error fault := by
    intro item fault hitem hpublished hinspect
    obtain ⟨q, -, hread⟩ := read_of_failed h.measured hitem.expects hpublished hinspect
    rw [hread]
  cases hfaulty with
  | hiddenId hdue hstart hid =>
    have hpart : p.ring.head.words < p.consumer.next + (p.schema.idDistance + 1) :=
      Nat.lt_succ_of_le hid
    obtain ⟨q, -, hawait⟩ := await_of_split hstart hpart h.ordered.seenHead
    simp only [Pipe.read, hdue, ↓reduceIte, readMessage, hawait]
  | unknownId hdue hid hends hword =>
    have hvisible : p.consumer.next + (p.schema.idDistance + 1) ≤ p.ring.head.words := hid
    obtain ⟨_, ⟨seen, -, rfl⟩, hawait⟩ := await_of_visible hvisible
    simp only [Pipe.read, hdue, ↓reduceIte, readMessage, hawait]
    rw [ring_look, schema_look]
    have hclassify := Ring.classifyId_of_unknown (r := p.ring) hends hword p.idPosition
    unfold idPosition at hclassify ⊢
    rw [hclassify]
  | split hitem hstart hpart =>
    exact read_of_split hitem.expects hitem.id_lt hstart hpart h.ordered.seenHead
  | trailer hitem hpublished htrailer =>
    refine hrefused hitem hpublished (inspect_of_badTrailer ?_)
    unfold HasTrailer at htrailer
    omega
  | length hitem hpublished htrailer hf hlast hlength hword =>
    exact hrefused hitem hpublished (inspect_of_negativeLength htrailer hf hlast hlength hword)

theorem Faulty.isCorruption (h : p.Faulty cause) : cause.isCorruption = true := by
  cases h <;> rfl

end Verdicts

end Pipe

end FragmentPipe
