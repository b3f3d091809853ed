import FragmentPipe.Proofs.Reader.Visible
import FragmentPipe.Proofs.Stream.Attended

set_option autoImplicit false

namespace FragmentPipe

namespace Ring

structure GuidesPastMarker (r : Ring) (s : Schema) (start bytes : Nat) : Prop where
  id : r.word (start + s.idDistance) = -1
  trailer : r.word (start + s.idDistance + 1) = Int32.ofNat bytes

structure GuidesPastFragment (r : Ring) (s : Schema) (start bytes : Nat) (f : Fragment)
    (d : FragmentData) : Prop where
  id : f.startsMessage = true → r.word (start + s.idDistance) = Int32.ofNat f.start
  length : r.lengthOf s start f = d.length s
  trailer : r.word (start + f.words - 1) = Int32.ofNat bytes

/-- The words of a piece that lead a reader past it, with the bytes that its trailer tells. -/
def GuidesPast (r : Ring) (s : Schema) (start bytes : Nat) : Piece → Prop
  | .marker => r.GuidesPastMarker s start bytes
  | .fragment _ _ d => ∀ f, s.fragment? d.cursor = some f → r.GuidesPastFragment s start bytes f d

variable {r : Ring} {position : Nat}

theorem trailerAt_of_word {n : Nat} (hword : r.word position = Int32.ofNat n)
    (hcapacity : r.capacity.bytes ≤ 0x40000000) (hn : n ≤ r.capacity.bytes) :
    r.trailerAt position = .ok n := by
  have hint : (r.word position).toInt = n := by
    rw [hword]
    exact toInt_ofNat (by omega)
  rw [trailerAt_of_range (by omega) (by omega), hint, Int.toNat_natCast]

end Ring

namespace Pipe

section Checks

variable {s : Schema} {items : List StreamItem} {p q : Pipe} {k start bytes : Nat} {piece : Piece}
  {item : ReadItem}

theorem inspect_of_guides (hs : s.Measured) (hschema : p.schema = s)
    (hcapacity : p.ring.capacity.bytes ≤ 0x40000000) (hbytes : bytes ≤ p.ring.capacity.bytes)
    (hguides : p.ring.GuidesPast s start bytes piece) (hitem : piece.Item s item) :
    p.inspect start item = .ok bytes := by
  have htrailer : p.ring.trailerAt (start + item.words p.schema - 1) = .ok bytes := by
    refine Ring.trailerAt_of_word ?_ hcapacity hbytes
    rw [hschema]
    cases hitem with
    | marker =>
      rw [ReadItem.words, hs.marker_eq]
      exact hguides.trailer
    | message hf | continuation hf => exact (hguides _ hf).trailer
  unfold Pipe.inspect
  rw [htrailer, hschema]
  cases hfragment : item.fragment? with
  | none => rfl
  | some f =>
    obtain ⟨m, index, d, rfl, hf⟩ := hitem.fragment hfragment
    obtain ⟨last, final, hlast, -⟩ := s.lastOf?_of_fragment? hs.laidOut
      (show s.fragment? f.start = some f by
        rw [← (Schema.fragment?_eq_some hf).1]
        exact hf)
    have hlength := (hguides f hf).length
    simp only [Ring.lengthOf, hlast] at hlength ⊢
    by_cases hcounts : final.token.isLength = true
    · rw [if_pos hcounts] at hlength
      rw [if_pos hcounts, Ring.lengthAt_of_nonneg (by omega)]
    · rw [if_neg hcounts]

theorem announces_of_guides (hs : s.Measured) (hfits : StreamFits s items) (hschema : p.schema = s)
    (hpiece : (piecesOf items)[k]? = some piece) (hitem : piece.Item s item)
    (hfirst : piece.index = 0) (hguides : p.ring.GuidesPast s p.consumer.next bytes piece) :
    p.Announces item := by
  unfold Announces
  rw [hschema]
  cases hitem with
  | marker =>
    refine ⟨.endOfStream, ?_, rfl⟩
    rw [hguides.id]
    rfl
  | continuation => exact absurd hfirst (Nat.succ_ne_zero _)
  | @message m d f hf =>
    obtain ⟨hstream, hmember⟩ := mem_of_piecesOf hpiece
    obtain ⟨f', hf', hstart, -, hstarts⟩ := (hfits m hstream).begins hs.laidOut hmember
    rw [hf] at hf'
    cases hf'
    obtain ⟨hcursor, e, -, he, -⟩ := Schema.fragment?_eq_some hf
    have hmessage : s.isMessageStart d.cursor = true := by
      rw [hcursor, ← Schema.startsMessage_of_fragment? hf, hstarts]
      rfl
    have hlt : d.cursor < s.size := by
      rw [← hstart]
      exact Schema.lt_size_of_getElem? he
    have hsize := hs.size_le
    rw [toInt_maxValue] at hsize
    have hint : (Int32.ofNat d.cursor).toInt = d.cursor := toInt_ofNat (by omega)
    refine ⟨.message d.cursor, ?_, ?_⟩
    · rw [(hguides f hf).id hstarts, hstart]
      unfold Ring.classifyId
      rw [hint, if_neg, if_pos hmessage, Int.toNat_natCast]
      simp only [Bool.or_eq_true, decide_eq_true_eq, beq_iff_eq]
      omega
    · rw [itemOf?, hschema, hf]
      rfl

theorem exists_item (hs : s.LaidOut) (hfits : StreamFits s items)
    (hpiece : (piecesOf items)[k]? = some piece) : ∃ item, piece.Item s item := by
  cases piece with
  | marker => exact ⟨_, .marker⟩
  | fragment m index d =>
    obtain ⟨hitem, hmember⟩ := mem_of_piecesOf hpiece
    obtain ⟨f, hf, -⟩ := (hfits m hitem).begins hs hmember
    cases index with
    | zero => exact ⟨_, .message hf⟩
    | succ index => exact ⟨_, .continuation hf⟩

end Checks

section Reads

variable {s : Schema} {items : List StreamItem} {p q : Pipe} {read bytes : Nat} {piece : Piece}
  {item : ReadItem}

theorem Awaits.expects (hs : s.Measured) (hfits : StreamFits s items) (hschema : p.schema = s)
    (hawaits : p.Awaits s (piecesOf items) read) (hpiece : (piecesOf items)[read]? = some piece)
    (hitem : piece.Item s item) (hguides : p.ring.GuidesPast s p.consumer.next bytes piece) :
    p.Expects item := by
  unfold Expects
  by_cases hfirst : piece.index = 0
  · rw [if_pos (hawaits.due hs.laidOut hfits hschema hpiece hfirst)]
    exact announces_of_guides hs hfits hschema hpiece hitem hfirst hguides
  · cases hitem with
    | marker | message => exact absurd rfl hfirst
    | continuation hf =>
      obtain ⟨j, d, base, -, -, -, hdue, hcursor⟩ :=
        hawaits.continues hs.laidOut hfits hschema hpiece
      rw [hdue, if_neg Bool.false_ne_true]
      refine ⟨hdue, _, ?_, rfl⟩
      rw [hschema, hcursor]
      exact hf

theorem Awaits.reads (hs : s.Measured) (hfits : StreamFits s items) (hschema : p.schema = s)
    (hfollows : p.consumer.Follows p.schema) (hawaits : p.Awaits s (piecesOf items) read)
    (hpiece : (piecesOf items)[read]? = some piece)
    (hguides : p.ring.GuidesPast s p.consumer.next bytes piece)
    (hvisible : p.consumer.next + (piece.extent s).words ≤ p.ring.head.words)
    (hcapacity : p.ring.capacity.bytes ≤ 0x40000000) (hbytes : bytes ≤ p.ring.capacity.bytes) :
    ∃ q item, p.read = (.ok true, q) ∧ piece.Item s item ∧ p.Expects item ∧
      p.Moved p.consumer.next item bytes q := by
  obtain ⟨item, hitem⟩ := exists_item hs.laidOut hfits hpiece
  have hexpects := hawaits.expects hs hfits hschema hpiece hitem hguides
  have hinspect := inspect_of_guides hs hschema hcapacity hbytes hguides hitem
  rw [← hitem.words hs.toAccepted, ← hschema] at hvisible
  obtain ⟨q, hread, hmoved⟩ :=
    read_of_visible (hschema.symm ▸ hs) hfollows hexpects hvisible hinspect
  exact ⟨q, item, hread, hitem, hexpects, hmoved⟩

/-- The spans of the piece that was moved onto resolve from its own start, if an item begins with
it, and else from where those of the piece before did. -/
theorem Moved.byteBase_of_item (hitem : piece.Item s item)
    (hmoved : p.Moved p.consumer.next item bytes q) :
    q.consumer.byteBase =
      if piece.index = 0 then q.consumer.tail.bytes else p.consumer.byteBase := by
  rw [hmoved.byteBase]
  cases hitem with
  | marker | message => rfl
  | continuation => rfl

/-- What the consumer has prepared once it has moved onto the next piece. -/
theorem Moved.shows (hs : s.Measured) (hfits : StreamFits s items) (hschema : p.schema = s)
    (hfollows : p.consumer.Follows p.schema) (hawaits : p.Awaits s (piecesOf items) read)
    (hpiece : (piecesOf items)[read]? = some piece) (hitem : piece.Item s item)
    (hguides : p.ring.GuidesPast s p.consumer.next bytes piece) (hexpected : p.Expects item)
    (hmoved : p.Moved p.consumer.next item bytes q) :
    q.Shows s q.consumer.byteBase piece := by
  subst hschema
  have hvisit : ∀ m index d f, piece = .fragment m index d → item.fragment? = some f →
      p.schema.fragment? d.cursor = some f → f.start = d.cursor ∧
        q.visit?.toList = [⟨d.cursor, d.length p.schema⟩] := by
    intro m index d f heq hfragment hf
    subst heq
    have hstart : f.start = d.cursor := (Int.ofNat.inj (Schema.fragment?_eq_some hf).1).symm
    refine ⟨hstart, ?_⟩
    rw [visit?_of_moved hmoved hfragment (hstart ▸ hf), (hguides f hf).length, hstart]
    rfl
  unfold Expects at hexpected
  cases hitem with
  | marker =>
    exact ⟨hmoved.cursor, (hmoved.marker rfl).1, hmoved.messageId, hmoved.isNewMessage,
      hmoved.endOfStream⟩
  | @message m d f hf =>
    obtain ⟨hstream, hmember⟩ := mem_of_piecesOf hpiece
    obtain ⟨hstart, hvisited⟩ := hvisit m 0 d f rfl rfl hf
    obtain ⟨-, -, -, hid, -⟩ := (hfits m hstream).begins hs.laidOut hmember
    rw [if_pos (hawaits.due hs.laidOut hfits rfl hpiece rfl)] at hexpected
    have hcourse := (onCourse_of_announces hs.laidOut hexpected hmoved).2
    refine ⟨hmoved.cursor.trans (congrArg some hstart), ?_, hmoved.isNewMessage,
      hmoved.endOfStream, hmoved.hasFragment, rfl, ?_⟩
    · rw [hmoved.messageId, ← hid rfl, ← hstart]
      rfl
    · rw [m.visits_succ p.schema hmember, ← hvisited]
      exact hcourse
  | @continuation m index e f hf =>
    obtain ⟨-, hmember⟩ := mem_of_piecesOf hpiece
    obtain ⟨hstart, hvisited⟩ := hvisit m (index + 1) e f rfl rfl hf
    obtain ⟨j, d, base, -, -, hshows, hdue, -⟩ := hawaits.continues hs.laidOut hfits rfl hpiece
    rw [hdue] at hexpected
    have hcourse := (onCourse_of_continues hfollows hshows.course hexpected hmoved).2
    refine ⟨hmoved.cursor.trans (congrArg some hstart), ?_, hmoved.isNewMessage,
      ?_, hmoved.hasFragment, rfl, ?_⟩
    · rw [hmoved.messageId]
      exact hshows.messageId
    · rw [hmoved.endOfStream]
      exact hshows.endOfStream
    · rw [m.visits_succ p.schema hmember, ← hvisited]
      exact hcourse

end Reads

end Pipe

end FragmentPipe
