import FragmentPipe.Proofs.Reader.Traversal
import FragmentPipe.Proofs.Stream.Marks

set_option autoImplicit false

namespace FragmentPipe

def MessageData.visits (s : Schema) (m : MessageData) (count : Nat) : List Visit :=
  (m.fragments.take count).map fun d => ⟨d.cursor, d.length s⟩

section Visits

variable (s : Schema) (m : MessageData)

theorem MessageData.agrees_visits (count : Nat) : Pipe.Agrees (m.lengths s) (m.visits s count) := by
  intro i visit hvisit
  unfold visits at hvisit
  rw [List.getElem?_map, Option.map_eq_some_iff] at hvisit
  obtain ⟨d, hd, rfl⟩ := hvisit
  rw [List.getElem?_take] at hd
  split at hd
  · rw [lengths, hd]
    rfl
  · cases hd

theorem MessageData.cursors_visits (count : Nat) :
    (m.visits s count).map Visit.cursor = (m.fragments.map FragmentData.cursor).take count := by
  rw [visits, List.map_map, ← List.map_take]
  rfl

variable {m}

theorem MessageData.visits_succ {index : Nat} {d : FragmentData}
    (h : m.fragments[index]? = some d) :
    m.visits s (index + 1) = m.visits s index ++ [⟨d.cursor, d.length s⟩] := by
  rw [visits, List.take_add_one, h, List.map_append]
  rfl

end Visits

namespace Pipe

structure ShowsMarker (p : Pipe) : Prop where
  cursor : p.consumer.cursor = none
  nextCursor : p.consumer.nextCursor = none
  messageId : p.consumer.messageId = none
  isNewMessage : p.consumer.isNewMessage = true
  endOfStream : p.consumer.endOfStream = true

structure ShowsFragment (s : Schema) (p : Pipe) (base : Nat) (m : MessageData) (index : Nat)
    (d : FragmentData) : Prop where
  cursor : p.consumer.cursor = some d.cursor
  messageId : p.consumer.messageId = some m.id
  isNewMessage : p.consumer.isNewMessage = decide (index = 0)
  endOfStream : p.consumer.endOfStream = false
  hasFragment : p.consumer.hasFragment = true
  byteBase : p.consumer.byteBase = base
  course : p.OnCourse (m.visits s (index + 1))

def Shows (s : Schema) (p : Pipe) (base : Nat) : Piece → Prop
  | .marker => p.ShowsMarker
  | .fragment m index d => p.ShowsFragment s base m index d

/-- The consumer has read some pieces of a stream and has the last of them prepared. -/
structure Awaits (s : Schema) (l : List Piece) (p : Pipe) (read : Nat) : Prop where
  fresh : read = 0 → p.consumer.nextCursor = none
  shows : ∀ k piece, read = k + 1 → l[k]? = some piece → ∃ base, p.Shows s base piece

structure Attends (s : Schema) (l : List Piece) (p : Pipe) (read : Nat) : Prop where
  tail : p.consumer.tail = markAt s l (read - 1)
  next : p.consumer.next = (markAt s l read).words
  bytes : p.consumer.tail.bytes + p.consumer.fragmentBytes = (markAt s l read).bytes
  fresh : read = 0 → p.consumer.nextCursor = none
  shows : ∀ k piece, read = k + 1 → l[k]? = some piece → p.Shows s (baseAt s l k piece) piece

theorem Attends.awaits {s : Schema} {l : List Piece} {p : Pipe} {read : Nat}
    (h : p.Attends s l read) : p.Awaits s l read :=
  ⟨h.fresh, fun k piece hread hpiece => ⟨_, h.shows k piece hread hpiece⟩⟩

structure KeepsPrepared (p q : Pipe) : Prop extends p.KeepsReader q where
  tail : q.consumer.tail = p.consumer.tail
  next : q.consumer.next = p.consumer.next
  fragmentBytes : q.consumer.fragmentBytes = p.consumer.fragmentBytes
  byteBase : q.consumer.byteBase = p.consumer.byteBase
  isNewMessage : q.consumer.isNewMessage = p.consumer.isNewMessage
  endOfStream : q.consumer.endOfStream = p.consumer.endOfStream
  hasFragment : q.consumer.hasFragment = p.consumer.hasFragment

section Keeps

variable {s : Schema} {l : List Piece} {p q : Pipe} {read : Nat}

theorem KeepsConsumer.keepsPrepared (h : p.KeepsConsumer q) : p.KeepsPrepared q := by
  refine ⟨h.keepsReader, ?_, ?_, ?_, ?_, ?_, ?_, ?_⟩ <;> rw [h.consumer]

theorem Unmoved.keepsPrepared (h : p.Unmoved q) : p.KeepsPrepared q := by
  obtain ⟨seen, -, rfl⟩ := h
  exact ⟨⟨rfl, rfl, rfl, rfl, rfl, rfl⟩, rfl, rfl, rfl, rfl, rfl, rfl, rfl⟩

theorem keepsPrepared_releaseNow (p : Pipe) : p.KeepsPrepared p.releaseNow := by
  unfold releaseNow release
  split <;> exact ⟨⟨rfl, rfl, rfl, rfl, rfl, rfl⟩, rfl, rfl, rfl, rfl, rfl, rfl, rfl⟩

theorem KeepsReader.shows (h : p.KeepsReader q)
    (hnewMessage : q.consumer.isNewMessage = p.consumer.isNewMessage)
    (hendOfStream : q.consumer.endOfStream = p.consumer.endOfStream)
    (hhasFragment : q.consumer.hasFragment = p.consumer.hasFragment)
    (hbyteBase : q.consumer.byteBase = p.consumer.byteBase) {base : Nat} {piece : Piece}
    (hshows : p.Shows s base piece) : q.Shows s base piece := by
  cases piece with
  | marker =>
    obtain ⟨hcursor, hnext, hid, hnew, hend⟩ := hshows
    exact ⟨h.cursor.trans hcursor, h.nextCursor.trans hnext, h.messageId.trans hid,
      hnewMessage.trans hnew, hendOfStream.trans hend⟩
  | fragment m index d =>
    obtain ⟨hcursor, hid, hnew, hend, hfragment, hbase, hcourse⟩ := hshows
    exact ⟨h.cursor.trans hcursor, h.messageId.trans hid, hnewMessage.trans hnew,
      hendOfStream.trans hend, hhasFragment.trans hfragment, hbyteBase.trans hbase,
      h.onCourse hcourse⟩

theorem KeepsPrepared.shows (h : p.KeepsPrepared q) {base : Nat} {piece : Piece}
    (hshows : p.Shows s base piece) : q.Shows s base piece :=
  h.toKeepsReader.shows h.isNewMessage h.endOfStream h.hasFragment h.byteBase hshows

end Keeps

end Pipe

inductive Piece.Item (s : Schema) : Piece → ReadItem → Prop where
  | marker : Item s .marker .marker
  | message {m : MessageData} {d : FragmentData} {f : Fragment}
      (hf : s.fragment? d.cursor = some f) : Item s (.fragment m 0 d) (.message f)
  | continuation {m : MessageData} {index : Nat} {d : FragmentData} {f : Fragment}
      (hf : s.fragment? d.cursor = some f) : Item s (.fragment m (index + 1) d) (.continuation f)

section Items

variable {s : Schema} {piece : Piece} {item : ReadItem}

theorem Piece.Item.words (hs : s.Accepted) (h : piece.Item s item) :
    item.words s = (piece.extent s).words := by
  cases h with
  | marker => exact hs.marker_eq
  | message hf | continuation hf =>
    rw [Piece.extent, hf]
    rfl

theorem Piece.Item.fragment (h : piece.Item s item) {f : Fragment} (hf : item.fragment? = some f) :
    ∃ m index d, piece = .fragment m index d ∧ s.fragment? d.cursor = some f := by
  cases h with
  | marker => cases hf
  | message hfragment | continuation hfragment =>
    cases hf
    exact ⟨_, _, _, rfl, hfragment⟩

end Items

namespace Pipe

section Expecting

variable {s : Schema} {items : List StreamItem} {p : Pipe} {read : Nat}

/-- Behind a fragment of a message its next one is expected, or a message behind the last. -/
theorem ShowsFragment.ahead (hs : s.LaidOut) (hschema : p.schema = s) {base : Nat}
    {m : MessageData} {index : Nat} {d : FragmentData} (hfits : m.Fits s)
    (hd : m.fragments[index]? = some d) (h : p.ShowsFragment s base m index d) :
    p.isMessageDue = decide (index + 1 = m.fragments.length) ∧
      ∀ e, m.fragments[index + 1]? = some e → p.consumer.nextCursor = some e.cursor := by
  subst hschema
  have hlt := (List.getElem?_eq_some_iff.1 hd).1
  have hne : m.visits p.schema (index + 1) ≠ [] := by
    rw [m.visits_succ _ hd]
    simp
  have hlength : (m.visits p.schema (index + 1)).length = index + 1 := by
    rw [MessageData.visits, List.length_map, List.length_take]
    omega
  obtain ⟨id, hid, -, hunfolds⟩ := prefix_unfold_of_onCourse hs h.course hne
  rw [h.messageId] at hid
  cases hid
  obtain ⟨script, hscript, hunfold⟩ := hfits.unfolds
  obtain ⟨-, hdue, hmore⟩ := hunfolds script hscript _ (m.agrees_visits p.schema _)
  rw [← hunfold, m.cursors_visits] at hdue
  rw [← hunfold, hlength, List.getElem?_map] at hmore
  have hwhole : (m.fragments.map FragmentData.cursor).take (index + 1) =
      m.fragments.map FragmentData.cursor ↔ index + 1 = m.fragments.length := by
    constructor
    · intro heq
      have := congrArg List.length heq
      simp only [List.length_take, List.length_map] at this
      omega
    · intro heq
      exact List.take_of_length_le (by rw [List.length_map]; omega)
  refine ⟨?_, fun e he => ?_⟩
  · rw [Bool.eq_iff_iff, decide_eq_true_iff]
    exact hdue.trans hwhole
  · have hinside := (List.getElem?_eq_some_iff.1 he).1
    have hnotDue : p.isMessageDue = false := by
      rw [← Bool.not_eq_true, hdue, hwhole]
      omega
    rw [← hmore hnotDue, he]
    rfl

theorem Awaits.due (hs : s.LaidOut) (hfits : StreamFits s items) (hschema : p.schema = s)
    (h : p.Awaits s (piecesOf items) read) {piece : Piece}
    (hpiece : (piecesOf items)[read]? = some piece) (hfirst : piece.index = 0) :
    p.isMessageDue = true := by
  cases read with
  | zero =>
    unfold isMessageDue
    rw [h.fresh rfl]
  | succ j =>
    obtain ⟨before, hbefore⟩ : ∃ before, (piecesOf items)[j]? = some before :=
      ⟨_, List.getElem?_eq_getElem (by have := (List.getElem?_eq_some_iff.1 hpiece).1; omega)⟩
    obtain ⟨base, hshows⟩ := h.shows j before rfl hbefore
    cases precedes_of_succ hs hfits hbefore hpiece with
    | message m index d e => exact absurd hfirst (Nat.succ_ne_zero index)
    | item hends =>
      cases before with
      | marker =>
        unfold isMessageDue
        rw [hshows.nextCursor]
      | fragment m index d =>
        obtain ⟨hitem, hmember⟩ := mem_of_piecesOf hbefore
        have hlast : index + 1 = m.fragments.length := hends
        rw [(hshows.ahead hs hschema (hfits m hitem) hmember).1, decide_eq_true hlast]

theorem Awaits.continues (hs : s.LaidOut) (hfits : StreamFits s items) (hschema : p.schema = s)
    (h : p.Awaits s (piecesOf items) read) {m : MessageData} {index : Nat} {e : FragmentData}
    (hpiece : (piecesOf items)[read]? = some (.fragment m (index + 1) e)) :
    ∃ j d base, read = j + 1 ∧ (piecesOf items)[j]? = some (.fragment m index d) ∧
      p.ShowsFragment s base m index d ∧ p.isMessageDue = false ∧
      p.consumer.nextCursor = some e.cursor := by
  cases read with
  | zero => exact absurd (index_of_head hs hfits hpiece) (Nat.succ_ne_zero index)
  | succ j =>
    obtain ⟨before, hbefore⟩ : ∃ before, (piecesOf items)[j]? = some before :=
      ⟨_, List.getElem?_eq_getElem (by have := (List.getElem?_eq_some_iff.1 hpiece).1; omega)⟩
    obtain ⟨base, hshows⟩ := h.shows j before rfl hbefore
    cases precedes_of_succ hs hfits hbefore hpiece with
    | item _ hbegins => exact absurd hbegins (Nat.succ_ne_zero index)
    | message m index d e =>
      obtain ⟨hitem, hmember⟩ := mem_of_piecesOf hbefore
      obtain ⟨-, hnext⟩ := mem_of_piecesOf hpiece
      obtain ⟨hdue, hcursor⟩ := hshows.ahead hs hschema (hfits m hitem) hmember
      have hinside := (List.getElem?_eq_some_iff.1 hnext).1
      refine ⟨j, d, base, rfl, hbefore, hshows, ?_, hcursor e hnext⟩
      rw [hdue, decide_eq_false (Nat.ne_of_lt hinside)]

end Expecting

end Pipe

end FragmentPipe
