import FragmentPipe.Proofs.Stream.Carried
import FragmentPipe.Proofs.Writer.Published

set_option autoImplicit false

namespace FragmentPipe

namespace Pipe

/-- The consumer has a fragment prepared as it was written: where it stands in its message, and the
value of every field. -/
structure DeliversFragment (p : Pipe) (m : MessageData) (index : Nat) (d : FragmentData) :
    Prop where
  cursor : p.consumer.cursor = some d.cursor
  messageId : p.consumer.messageId = some m.id
  isNewMessage : p.consumer.isNewMessage = decide (index = 0)
  endOfStream : p.consumer.endOfStream = false
  isMessageDue : p.isMessageDue = decide (index + 1 = m.fragments.length)
  fields : ∃ f, p.schema.fragment? d.cursor = some f ∧ ∀ position ∈ p.schema.fieldsOf f, ∃ loc,
    p.schema.locator? position = some loc ∧
      p.readValue loc (d.value position).shape = .ok (d.value position)

structure DeliversMarker (p : Pipe) : Prop where
  cursor : p.consumer.cursor = none
  messageId : p.consumer.messageId = none
  isNewMessage : p.consumer.isNewMessage = true
  endOfStream : p.consumer.endOfStream = true
  isMessageDue : p.isMessageDue = true

def Delivers (p : Pipe) : Piece → Prop
  | .marker => p.DeliversMarker
  | .fragment m index d => p.DeliversFragment m index d

section Delivery

variable {s : Schema} {items : List StreamItem} {gaps : Nat → Nat} {p : Pipe} {g : Progress}
  {w : Raw} {k : Nat}

theorem ShowsMarker.delivers (h : p.ShowsMarker) : p.DeliversMarker := by
  refine ⟨h.cursor, h.messageId, h.isNewMessage, h.endOfStream, ?_⟩
  unfold isMessageDue
  rw [h.nextCursor]

theorem ShowsFragment.delivers_of_holds (hs : s.Measured) (hfits : StreamFits s items)
    (hpresents : p.Presents) (hschema : p.schema = s) {m : MessageData} {index : Nat}
    {d : FragmentData} (hpiece : (piecesOf items)[k]? = some (.fragment m index d))
    {base high : Nat}
    (hheld : p.ring.Holds s p.consumer.tail base high [] True (.fragment m index d))
    (h : p.ShowsFragment s base m index d) : p.DeliversFragment m index d := by
  subst hschema
  obtain ⟨hitem, hmember⟩ := mem_of_piecesOf hpiece
  obtain ⟨f, hf, hstart, -⟩ := (hfits m hitem).begins hs.laidOut hmember
  refine ⟨h.cursor, h.messageId, h.isNewMessage, h.endOfStream,
    (h.ahead hs.laidOut rfl (hfits m hitem) hmember).1, f, hf, fun position hposition => ?_⟩
  obtain ⟨hle, hstop, e, shape, he, hshape⟩ := Schema.mem_fieldsOf.1 hposition
  obtain ⟨offset, hfield⟩ := hs.exists_field hf hle hstop he
  have hvalue := ((hfits m hitem).fragments d (List.mem_of_getElem? hmember)).shape f position e
    shape hf hle hstop he hshape
  have hslot := (hpresents h.hasFragment f (hstart ▸ h.cursor) (hstart.symm ▸ hf)).1
  have hstored := ((hheld f hf).field position e offset shape hfield hshape List.not_mem_nil).value
  refine ⟨⟨f.depth, offset⟩, ?_, ?_⟩
  · rw [Schema.locator?, he, Option.bind_some, hfield.locator]
  · rw [readValue, atField, Consumer.position?, hslot, hvalue, h.byteBase]
    exact congrArg Except.ok hstored

/-- What was read last is as it was written, until it is left behind. -/
theorem Reaches.delivers (hs : s.Measured) (hfits : StreamFits s items) (hpresents : p.Presents)
    (hlays : p.Lays s (piecesOf items) gaps g w) (h : p.Reaches s (piecesOf items) gaps g.read w)
    (hkept : w.passing = false) (hread : g.read = k + 1) :
    ∃ piece, (piecesOf items)[k]? = some piece ∧ p.Delivers piece := by
  obtain ⟨htail, hfragment⟩ := h.prepared hkept k hread
  have hlt : k < g.published := Nat.lt_of_lt_of_le (by omega) hlays.read_le
  obtain ⟨piece, hpiece⟩ := hlays.exists_piece (Nat.lt_of_lt_of_le hlt hlays.published_le)
  have hshows := h.shows k piece hread hpiece
  rw [revive_of_hasFragment hfragment] at hshows
  refine ⟨piece, hpiece, ?_⟩
  cases piece with
  | marker => exact hshows.delivers
  | fragment m index d =>
    have hfirst : w.first g.read = k := by
      rw [Raw.first, hkept, if_neg Bool.false_ne_true, hread, Nat.add_sub_cancel]
    have hheld := hlays.holds_published hpiece hlt (Nat.le_of_eq hfirst)
    rw [← htail] at hheld
    exact hshows.delivers_of_holds hs hfits hpresents hlays.schema hpiece hheld

end Delivery

/-- In every state of every framed run a read succeeds exactly if a piece of the stream is published
that was not read. What was read last is the piece of that number, and its fields have the values
that were written. -/
theorem framed_delivered {schema : Schema} {config : Config} {items : List StreamItem} {p : Pipe}
    {g : Progress} (h : Framed schema config items p g) (hs : schema.Accepted)
    (hfits : StreamFits schema items) :
    p.read.1 = .ok (decide (g.read < g.published)) ∧
      (g.read ≤ g.published ∧ g.published ≤ g.opened ∧ g.opened ≤ (piecesOf items).length) ∧
      ∀ k, g.read = k + 1 → ∃ piece, (piecesOf items)[k]? = some piece ∧ p.Delivers piece := by
  obtain ⟨hlays, hreaches⟩ := h.spaced.tracks hs hfits
  refine ⟨h.read_decided hs hfits, ⟨hlays.read_le, hlays.published_le, hlays.opened_le⟩,
    fun k hread => ?_⟩
  exact hreaches.delivers (h.reachable.measured hs) hfits (h.reachable.presents hs.compiled) hlays
    rfl hread

def bookScript : Script :=
  .bracketed
    [⟨.build .group Token.templateBit 0, .build .group (Token.templateBit + Token.closeBit) 7,
      by decide, by decide,
      .plain (.build (.value .integerSigned false) 0 1) (by decide)
        (.sequence (.build .sequenceLength 0 2) (.build .group Token.sequenceBit 3)
          (.build .group (Token.sequenceBit + Token.closeBit) 6) (by decide) (by decide) (by decide)
          (.plain (.build (.value .decimal false) 0 4) (by decide)
            (.plain (.build (.value .byteArray false) 0 5) (by decide) .done))
          .done)⟩]

/-- A message of a book: its venue, and one level with a price and a maker of two letters. -/
def bookQuote : MessageData where
  id := 0
  fragments :=
    [⟨0, fun position => .word (if position = 1 then 7 else 1)⟩,
      ⟨3, fun position => if position = 4 then .decimal 2 5 else .bytes [72, 105]⟩]

theorem fits_bookQuote : StreamFits Schema.book [.message bookQuote, .endOfStream] := by
  intro m hm
  obtain rfl : m = bookQuote := by
    simpa using hm
  refine ⟨by decide, ⟨bookScript, by decide, by decide⟩, fun d hd => ?_⟩
  rcases List.mem_cons.1 hd with rfl | hd
  · exact .of_fields (f := ⟨0, 4, 3, 0, true⟩) (by decide) (by decide) (by decide)
  · obtain rfl := List.mem_singleton.1 hd
    exact .of_fields (f := ⟨3, 6, 4, 1, false⟩) (by decide) (by decide) (by decide)

def bookPublished : Pipe :=
  [.run (.openAt 0 0), .run (.write ⟨0, 1⟩ (.word 7)), .run (.write ⟨0, 2⟩ (.word 1)),
    .run (.openAt 3 2), .run (.write ⟨1, 3⟩ (.bytes [72, 105])),
    .run (.write ⟨1, 0⟩ (.decimal 2 5)), .run .publish].foldl
      (fun (p : Pipe) action => (p.act action).2) (fresh Schema.book ⟨⟨4, 3⟩, 1⟩)

theorem framed_bookPublished :
    Framed Schema.book ⟨⟨4, 3⟩, 1⟩ [.message bookQuote, .endOfStream] bookPublished
      ⟨2, [], 2, 0⟩ := by
  have hbuilt : Framed Schema.book ⟨⟨4, 3⟩, 1⟩ [.message bookQuote, .endOfStream]
      (fresh Schema.book ⟨⟨4, 3⟩, 1⟩) ⟨0, [], 0, 0⟩ := .built (build_eq_fresh (by decide +kernel))
  have hfirst := ((hbuilt.opens 0 rfl rfl (f := ⟨0, 4, 3, 0, true⟩) (by decide)
    (eq_ok_of_toOption (by decide +kernel))).writes 1 rfl rfl (by decide)
    (show Schema.book.locator? 1 = some ⟨0, 1⟩ by decide)
    (eq_ok_of_toOption (by decide +kernel))).writes 2 rfl rfl (by decide)
    (show Schema.book.locator? 2 = some ⟨0, 2⟩ by decide) (eq_ok_of_toOption (by decide +kernel))
  have hsecond := ((hfirst.opens 2 rfl rfl (f := ⟨3, 6, 4, 1, false⟩) (by decide)
    (eq_ok_of_toOption (by decide +kernel))).writes 5 rfl rfl (by decide)
    (show Schema.book.locator? 5 = some ⟨1, 3⟩ by decide)
    (eq_ok_of_toOption (by decide +kernel))).writes 4 rfl rfl (by decide)
    (show Schema.book.locator? 4 = some ⟨1, 0⟩ by decide) (eq_ok_of_toOption (by decide +kernel))
  exact hsecond.publishes rfl

/-- A message of a book comes out as it was put in, and its end is a place for the next one. -/
theorem framed_delivered_book :
    ∃ p g, Framed Schema.book ⟨⟨4, 3⟩, 1⟩ [.message bookQuote, .endOfStream] p g ∧
      g = ⟨2, [], 2, 2⟩ ∧ p.read.1 = .ok false ∧ p.DeliversFragment bookQuote 1
        ⟨3, fun position => if position = 4 then .decimal 2 5 else .bytes [72, 105]⟩ := by
  have haccepted : Schema.book.Accepted :=
    ⟨Schema.compiled_book, by decide, by decide, by decide⟩
  have hread := (framed_bookPublished.reads (eq_ok_of_toOption (by decide +kernel))).reads
    (eq_ok_of_toOption (by decide +kernel))
  obtain ⟨hnone, -, hdelivers⟩ := framed_delivered hread haccepted fits_bookQuote
  obtain ⟨piece, hpiece, hdelivered⟩ := hdelivers 1 rfl
  cases hpiece
  exact ⟨_, _, hread, rfl, hnone, hdelivered⟩

end Pipe

end FragmentPipe
