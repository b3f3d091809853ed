import FragmentPipe.Proofs.Refused.Writes

set_option autoImplicit false

namespace FragmentPipe

namespace Pipe

def InFrontOf (p : Pipe) (trailer : Nat) (loc : Locator) (value : Value) : Prop :=
  ∃ start, p.producer.starts[loc.depth]? = some start ∧
    p.ring.tail.words ≤ start + loc.offset ∧ start + loc.offset + value.shape.words ≤ trailer

section Writing

variable {p : Pipe} {loc : Locator} {value : Value} {trailer : Nat}

theorem word_write (h : p.InFrontOf trailer loc value)
    (hroom : trailer < p.ring.tail.words + p.ring.capacity.words) :
    (p.write loc value).2.ring.word trailer = p.ring.word trailer := by
  obtain ⟨start, hstart, hlow, hhigh⟩ := h
  have hcapacity : p.ring.capacity.words = p.ring.words.capacity := rfl
  refine word_write_of_slot_ne hstart fun k hk => ?_
  exact p.ring.words.slot_ne_of_ne p.ring.tail.words (by omega) (by omega) (by omega) (by omega)
    (by omega)

theorem word_fill {fields : List (Locator × Value)}
    (h : ∀ field ∈ fields, p.InFrontOf trailer field.1 field.2)
    (hroom : trailer < p.ring.tail.words + p.ring.capacity.words) :
    (p.fill fields).ring.word trailer = p.ring.word trailer := by
  induction fields generalizing p with
  | nil => rfl
  | cons field rest ih =>
    have hfirst := word_write (h field List.mem_cons_self) hroom
    have hgoesOn := p.goesOn_write field.1 field.2
    have hstarts := (p.retains_write field.1 field.2).starts
    have hlater : ∀ other ∈ rest,
        (p.write field.1 field.2).2.InFrontOf trailer other.1 other.2 := by
      intro other hother
      obtain ⟨start, hstart, hlow, hhigh⟩ := h other (List.mem_cons_of_mem field hother)
      exact ⟨start, hstarts ▸ hstart, hgoesOn.tail ▸ hlow, hhigh⟩
    exact (ih hlater (by rw [hgoesOn.tail, hgoesOn.capacity]; exact hroom)).trans hfirst

end Writing

section Marker

variable {p : Pipe} {opened : OpenFragment}

theorem publishMarker_of_refused (h : p.publishMarker.1 = false) :
    p.publishMarker = (false, p.storeTrailer.glance p.ring.tail) := by
  rcases p.publishMarker_cases with ⟨seen, -, -, hmarker⟩ | ⟨-, hmarker⟩
  · rw [hmarker] at h
    cases h
  · exact hmarker

theorem word_storeAhead {position offset : Nat} (value : Int32)
    (h : p.producer.head.words + offset = position + p.ring.capacity.words) :
    (p.storeAhead offset value).ring.word position = value := by
  apply p.ring.words.get_set_of_slot_eq
  show (p.producer.head.words + offset) % p.ring.words.cells.size = _
  rw [h]
  exact Nat.add_mod_right _ _

/-- A word that is stored over a trailer stays if the trailer was in place before, and gives way to
the trailer if that is stored with the next publication. So the two pipes can be told apart. -/
theorem storeTrailer_not_interchangeable (h : p.Ordered)
    (hopened : p.producer.pending = some opened) (seen : Mark) :
    ¬ (p.storeTrailer.glance seen).Interchangeable p := by
  intro hsame
  have htrailer := (h.pending opened hopened).1
  have hreleased := h.released.1
  have hprepared := h.prepared
  have hunread := h.unread
  have hroom := h.room.1
  simp only [Mark.words_add] at hroom
  obtain ⟨offset, hoffset⟩ : ∃ offset,
      p.producer.head.words + offset = opened.trailer + p.ring.capacity.words :=
    ⟨opened.trailer + p.ring.capacity.words - p.producer.head.words, by omega⟩
  obtain ⟨value, hvalue⟩ : ∃ value : Int32,
      value ≠ Int32.ofNat (p.producer.head.bytes - opened.bytesStart) := by
    by_cases hzero : Int32.ofNat (p.producer.head.bytes - opened.bytesStart) = 0
    · exact ⟨1, by rw [hzero]; decide⟩
    · exact ⟨0, fun heq => hzero heq.symm⟩
  have hask := ((hsame.run (.storeAhead offset value)).run .publish).ask (.wordAt opened.trailer)
  have hword : ((p.storeTrailer.glance seen).storeAhead offset value).publish.ring.word
      opened.trailer = (p.storeAhead offset value).publish.ring.word opened.trailer :=
    Int32.toInt_inj.1 (Reply.integer.inj (Except.ok.inj hask))
  have hstored : ((p.storeTrailer.glance seen).storeAhead offset value).publish.ring.word
      opened.trailer = value := by
    rw [publish_of_none (p := (p.storeTrailer.glance seen).storeAhead offset value)
      p.pending_storeTrailer]
    apply word_storeAhead (p := p.storeTrailer.glance seen)
    show p.storeTrailer.producer.head.words + offset =
      opened.trailer + p.storeTrailer.ring.capacity.words
    rw [p.head_storeTrailer, p.capacity_storeTrailer]
    exact hoffset
  apply hvalue
  rw [← hstored, hword]
  exact word_publish (p := p.storeAhead offset value) hopened

/-- A marker that finds no room is refused without a trace exactly if no fragment is open. If one
is, its trailer is stored all the same and the fragment counts as complete: the trailer that is
published misses the bytes of values that are written to its fields afterwards, which it would count
had the marker not been tried. -/
theorem refused_marker_completes {schema : Schema} {config : Config}
    (h : Reachable schema config p) (hs : schema.Accepted) (hrefused : p.publishMarker.1 = false) :
    p.publishMarker.2 = p.storeTrailer.glance p.ring.tail ∧
      ((∃ seen, p.publishMarker.2 = p.glance seen) ↔ p.producer.pending = none) ∧
      (p.publishMarker.2.Interchangeable p ↔ p.producer.pending = none) ∧
      ∀ opened, p.producer.pending = some opened → ∀ fields : List (Locator × Value),
        (∀ field ∈ fields, p.InFrontOf opened.trailer field.1 field.2) →
          (p.publishMarker.2.fill fields).publish.ring.word opened.trailer =
              Int32.ofNat (p.producer.head.bytes - opened.bytesStart) ∧
            (p.fill fields).publish.ring.word opened.trailer =
              Int32.ofNat (p.producer.head.bytes + p.filled fields - opened.bytesStart) := by
  have hordered := h.ordered hs
  have hcoherent := (h.coherent hs).act (.run .publishMarker)
  have hmarker := publishMarker_of_refused hrefused
  change p.publishMarker.2.Coherent at hcoherent
  rw [hmarker] at hcoherent ⊢
  refine ⟨rfl, ⟨?_, ?_⟩, ⟨?_, ?_⟩, ?_⟩
  · rintro ⟨seen, hglance⟩
    have hpending := congrArg (fun q : Pipe => q.producer.pending) hglance
    exact hpending.symm.trans p.pending_storeTrailer
  · intro hnone
    exact ⟨p.ring.tail, by rw [storeTrailer_of_none hnone]⟩
  · intro hsame
    cases hopened : p.producer.pending with
    | none => rfl
    | some opened => exact absurd hsame (storeTrailer_not_interchangeable hordered hopened _)
  · intro hnone
    rw [storeTrailer_of_none hnone] at hcoherent ⊢
    exact Recalls.interchangeable (.inr ⟨hcoherent, h.coherent hs, rfl⟩)
  · intro opened hopened fields hfields
    have hhigh := (hordered.pending opened hopened).2
    have hroom := hordered.room.1
    simp only [Mark.words_add] at hroom
    refine ⟨?_, word_publish_fill hopened fields⟩
    have hpending := ((p.storeTrailer.glance p.ring.tail).head_fill fields).2
    rw [publish_of_none (hpending.trans p.pending_storeTrailer)]
    show ((p.storeTrailer.glance p.ring.tail).fill fields).ring.word opened.trailer = _
    rw [word_fill]
    · exact word_storeTrailer hopened
    · intro field hfield
      obtain ⟨start, hstart, hlow, hfront⟩ := hfields field hfield
      exact ⟨start, p.starts_storeTrailer ▸ hstart, p.ring_tail_storeTrailer ▸ hlow, hfront⟩
    · show opened.trailer < p.storeTrailer.ring.tail.words + p.storeTrailer.ring.capacity.words
      rw [p.ring_tail_storeTrailer, p.capacity_storeTrailer]
      omega

/-- A marker is refused behind three open fragments of a book that fill the ring. Two letters that
are written to the last of them afterwards are not counted. -/
theorem refused_marker_completes_book :
    ∃ p, Reachable Schema.book ⟨⟨4, 3⟩, 1⟩ p ∧ p.publishMarker.1 = false ∧
      p.producer.pending = some ⟨15, 0⟩ ∧ ¬ p.publishMarker.2.Interchangeable p ∧
      (p.publishMarker.2.fill [(⟨1, 3⟩, .bytes [72, 105])]).publish.ring.word 15 = 0 ∧
      (p.fill [(⟨1, 3⟩, .bytes [72, 105])]).publish.ring.word 15 = 2 := by
  have haccepted : Schema.book.Accepted :=
    ⟨Schema.compiled_book, by decide, by decide, by decide⟩
  have hbuilt : Reachable Schema.book ⟨⟨4, 3⟩, 1⟩ (fresh Schema.book ⟨⟨4, 3⟩, 1⟩) :=
    .built (build_eq_fresh (by decide +kernel))
  obtain ⟨p, hrun, hrefused, hpending, hstart, hbytes, hfilled⟩ :
      ∃ p, Reachable Schema.book ⟨⟨4, 3⟩, 1⟩ p ∧ p.publishMarker.1 = false ∧
        p.producer.pending = some ⟨15, 0⟩ ∧
        (p.producer.starts[1]? = some 10 ∧ p.ring.tail.words = 0) ∧ p.producer.head.bytes = 0 ∧
        p.filled [(⟨1, 3⟩, .bytes [72, 105])] = 2 :=
    ⟨_, ((hbuilt.act (.run (.openAt 0 0))).act (.run (.openAt 3 0))).act (.run (.openAt 3 0)),
      by decide +kernel⟩
  obtain ⟨-, -, hsame, hwords⟩ := refused_marker_completes hrun haccepted hrefused
  obtain ⟨hmissed, hcounted⟩ := hwords _ hpending [(⟨1, 3⟩, .bytes [72, 105])] <| by
    intro field hfield
    obtain rfl := List.mem_singleton.1 hfield
    exact ⟨10, hstart.1, by rw [hstart.2]; decide, by decide⟩
  rw [hbytes] at hmissed hcounted
  rw [hfilled] at hcounted
  refine ⟨p, hrun, hrefused, hpending, fun h => ?_, hmissed, hcounted⟩
  rw [hsame.1 h] at hpending
  cases hpending

/-- One letter is written before a refused marker and one after it. The trailer counts one. -/
theorem refused_marker_loses_bytes :
    (Schema.tick 0 .byteArray).Compiled ∧
      ∃ p, Reachable (.tick 0 .byteArray) ⟨⟨2, 3⟩, 1⟩ p ∧ p.publishMarker.1 = false ∧
        (∀ seen, p.publishMarker.2 ≠ p.glance seen) ∧
        (p.publishMarker.2.write ⟨0, 1⟩ (.bytes [98])).2.publish.ring.word 3 = 1 ∧
        (p.write ⟨0, 1⟩ (.bytes [98])).2.publish.ring.word 3 = 2 := by
  have hfields : Schema.ofFields [("Value", .value .byteArray false)] =
      .ok (.tick 0 .byteArray) := rfl
  have hbuilt : Reachable (.tick 0 .byteArray) ⟨⟨2, 3⟩, 1⟩
      (fresh (.tick 0 .byteArray) ⟨⟨2, 3⟩, 1⟩) := .built (build_eq_fresh (by decide +kernel))
  obtain ⟨p, hrun, hrefused, hopen, hclosed, hmissed, hcounted⟩ :
      ∃ p, Reachable (.tick 0 .byteArray) ⟨⟨2, 3⟩, 1⟩ p ∧ p.publishMarker.1 = false ∧
        p.producer.pending ≠ none ∧ p.publishMarker.2.producer.pending = none ∧
        (p.publishMarker.2.write ⟨0, 1⟩ (.bytes [98])).2.publish.ring.word 3 = 1 ∧
        (p.write ⟨0, 1⟩ (.bytes [98])).2.publish.ring.word 3 = 2 :=
    ⟨_, (hbuilt.act (.run (.openAt 0 0))).act (.run (.write ⟨0, 1⟩ (.bytes [97]))),
      by decide +kernel⟩
  refine ⟨.fields hfields, p, hrun, hrefused, fun seen hglance => hopen ?_, hmissed, hcounted⟩
  rw [hglance] at hclosed
  exact hclosed

end Marker

end Pipe

end FragmentPipe
