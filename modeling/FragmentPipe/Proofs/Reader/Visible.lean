import FragmentPipe.Proofs.Reader.Cursor
import FragmentPipe.Proofs.Script.Accepted

set_option autoImplicit false

namespace FragmentPipe

theorem Schema.Measured.wordDistance_lt {s : Schema} (hs : s.Measured) {cursor : Int} {f : Fragment}
    (hf : s.fragment? cursor = some f) {last : Nat} {final : Entry}
    (hlast : s.lastOf? f = some (last, final)) :
    final.wordDistance + final.token.words < f.words := by
  obtain ⟨stop, e, -, hspan, hstop, he, -⟩ := hs.words_eq hf
  obtain ⟨offset, hfield⟩ := hs.exists_field hf hspan.le (by omega) he
  unfold Schema.lastOf? at hlast
  simp only [hstop, Nat.add_sub_cancel, he, Option.map_some, Option.some.injEq,
    Prod.mk.injEq] at hlast
  obtain ⟨-, rfl⟩ := hlast
  rw [hfield.wordDistance]
  exact hfield.lt_words

theorem ReadItem.Sits.words_pos {s : Schema} (hs : s.Measured) {frames : List (SequenceFrame Nat)}
    {item : ReadItem} (h : item.Sits s frames) : 0 < item.words s := by
  cases item with
  | marker =>
    rw [ReadItem.words, hs.marker_eq]
    exact Nat.succ_pos _
  | message f | continuation f =>
    exact Nat.lt_of_le_of_lt (Nat.zero_le _) (hs.base_lt_words (h.fragment f rfl))

theorem ReadItem.Sits.wordDistance_lt {s : Schema} (hs : s.Measured)
    {frames : List (SequenceFrame Nat)} {item : ReadItem} (h : item.Sits s frames) {f : Fragment}
    {last : Nat} {final : Entry} (hf : item.fragment? = some f)
    (hlast : s.lastOf? f = some (last, final)) : final.wordDistance < item.words s := by
  have hlt := hs.wordDistance_lt (h.fragment f hf) hlast
  rw [words_of_fragment? hf]
  omega

namespace Pipe

section Attempts

variable {p : Pipe} {item : ReadItem} {bytes : Nat}

theorem Unmoved.follows {q : Pipe} (h : p.Unmoved q) (hfollows : p.consumer.Follows p.schema) :
    q.consumer.Follows q.schema := by
  obtain ⟨seen, -, rfl⟩ := h
  exact ⟨hfollows.starts, hfollows.capacity, hfollows.idle, hfollows.rests⟩

theorem await_of_visible {start size : Nat} (hvisible : start + size ≤ p.ring.head.words) :
    ∃ q, p.Unmoved q ∧ p.await start size = (.ok true, q) := by
  obtain ⟨seen, hseen, ⟨-, hawait⟩ | ⟨hhead, hlt, -⟩ | ⟨hhead, hlt, -⟩⟩ := p.await_cases start size
  · exact ⟨_, ⟨seen, hseen, rfl⟩, hawait⟩
  · omega
  · omega

theorem prepare_of_visible (hs : p.schema.LaidOut) (hfollows : p.consumer.Follows p.schema)
    (hsits : item.Sits p.schema p.consumer.sequences.frames) {start : Nat}
    (hvisible : start + item.words p.schema ≤ p.ring.head.words)
    (hinspect : p.inspect start item = .ok bytes) :
    ∃ q, p.prepare start item = (.ok true, q) ∧ p.Prepares start item bytes q := by
  obtain ⟨_, ⟨seen, hseen, rfl⟩, hawait⟩ := await_of_visible hvisible
  have hlook : (p.look seen).inspect start item = .ok bytes := hinspect
  obtain ⟨q, hcommit, -⟩ := commit_eq (p := p.look seen) hs
    (Unmoved.follows ⟨seen, hseen, rfl⟩ hfollows) hsits start bytes
  refine ⟨q, ?_, by omega, hinspect, seen, hseen, hcommit⟩
  unfold prepare
  simp only [hawait, hlook, hcommit]

theorem await_of_unpublished {start size : Nat} (hhead : p.ring.head.words ≤ start)
    (hseen : p.consumer.seenHead ≤ p.ring.head.words) (hsize : 0 < size) :
    ∃ q, p.await start size = (.ok false, q) := by
  obtain ⟨seen, hlast, ⟨hle, -⟩ | ⟨-, -, -, hawait⟩ | ⟨hat, -, hlt, -⟩⟩ := p.await_cases start size
  · rcases hlast with rfl | rfl <;> omega
  · exact ⟨_, hawait⟩
  · omega

theorem Announces.idDistance_lt (hs : p.schema.Measured) (h : p.Announces item) :
    p.schema.idDistance + 1 ≤ item.words p.schema := by
  have hsits := ReadItem.sits_of_announces hs.laidOut h []
  cases item with
  | marker =>
    rw [ReadItem.words, hs.marker_eq]
    exact Nat.le_succ _
  | message f =>
    have hf := hsits.fragment f rfl
    have hbase := hs.base_lt_words hf
    rw [Schema.base, Schema.startsMessage_of_fragment? hf, if_pos (hsits.message f rfl)] at hbase
    exact Nat.le_of_lt hbase
  | continuation f =>
    obtain ⟨id, -, hid⟩ := h
    cases id with
    | endOfStream => cases hid
    | message id =>
      obtain ⟨g, -, hg⟩ := Option.map_eq_some_iff.1 hid
      cases hg

theorem await_of_split {start size : Nat} (hstart : start < p.ring.head.words)
    (hpart : p.ring.head.words < start + size) (hseen : p.consumer.seenHead ≤ p.ring.head.words) :
    ∃ q, p.Unmoved q ∧
      p.await start size = (.error (.ofSplit start size p.ring.head.words), q) := by
  obtain ⟨seen, hlast, ⟨hle, -⟩ | ⟨hhead, -, hle, -⟩ | ⟨hhead, -, -, hawait⟩⟩ :=
    p.await_cases start size
  · rcases hlast with rfl | rfl <;> omega
  · omega
  · exact ⟨_, ⟨seen, hlast, rfl⟩, hhead ▸ hawait⟩

theorem prepare_of_failed {start : Nat} {fault : Fault}
    (hvisible : start + item.words p.schema ≤ p.ring.head.words)
    (hinspect : p.inspect start item = .error fault) :
    ∃ q, p.Unmoved q ∧ p.prepare start item = (.error fault, q) := by
  obtain ⟨_, ⟨seen, hseen, rfl⟩, hawait⟩ := await_of_visible hvisible
  have hlook : (p.look seen).inspect start item = .error fault := hinspect
  refine ⟨_, ⟨seen, hseen, rfl⟩, ?_⟩
  unfold prepare
  simp only [hawait, hlook]

theorem readMessage_eq_prepare_of_id (hitem : p.Announces item)
    (hid : p.consumer.next + p.schema.idDistance < p.ring.head.words) :
    ∃ q, p.Unmoved q ∧ p.readMessage = q.prepare p.consumer.next item := by
  have hvisible : p.consumer.next + (p.schema.idDistance + 1) ≤ p.ring.head.words := hid
  obtain ⟨_, ⟨seen, hseen, rfl⟩, hawait⟩ := await_of_visible hvisible
  obtain ⟨id, hclassify, hfound⟩ := hitem
  refine ⟨_, ⟨seen, hseen, rfl⟩, ?_⟩
  have hlook : (p.look seen).itemOf? id = some item := hfound
  unfold readMessage
  simp only [hawait]
  rw [ring_look, schema_look, hclassify]
  simp only [hlook]

theorem readContinuation_eq_prepare (hitem : p.Continues item) :
    p.readContinuation = p.prepare p.consumer.next item := by
  obtain ⟨hdue, f, hf, rfl⟩ := hitem
  unfold readContinuation
  simp only [hdue, Bool.false_eq_true, ↓reduceIte, hf]

theorem read_eq_prepare_of_id (hitem : p.Expects item)
    (hid : p.isMessageDue = true → p.consumer.next + p.schema.idDistance < p.ring.head.words) :
    ∃ q, p.Unmoved q ∧ p.read = q.prepare p.consumer.next item := by
  unfold read Expects at *
  split at hitem
  · rename_i hdue
    rw [if_pos hdue]
    exact readMessage_eq_prepare_of_id hitem (hid hdue)
  · rename_i hdue
    rw [if_neg hdue]
    exact ⟨p, ⟨p.consumer.seenHead, .inl rfl, rfl⟩, readContinuation_eq_prepare hitem⟩

theorem read_eq_prepare (hs : p.schema.Measured) (hitem : p.Expects item)
    (hvisible : p.consumer.next + item.words p.schema ≤ p.ring.head.words) :
    ∃ q, p.Unmoved q ∧ p.read = q.prepare p.consumer.next item := by
  refine read_eq_prepare_of_id hitem fun hdue => ?_
  rw [Expects, if_pos hdue] at hitem
  have hid := hitem.idDistance_lt hs
  omega

theorem sits_of_expects (hs : p.schema.LaidOut) (hfollows : p.consumer.Follows p.schema)
    (hitem : p.Expects item) : item.Sits p.schema p.consumer.sequences.frames := by
  rcases hitem.either with hannounces | hcontinues
  · exact ReadItem.sits_of_announces hs hannounces _
  · exact ReadItem.sits_of_continues hfollows hcontinues

/-- A read moves onto the item that is due once it is published and passes its checks. -/
theorem read_of_visible (hs : p.schema.Measured) (hfollows : p.consumer.Follows p.schema)
    (hitem : p.Expects item)
    (hvisible : p.consumer.next + item.words p.schema ≤ p.ring.head.words)
    (hinspect : p.inspect p.consumer.next item = .ok bytes) :
    ∃ q, p.read = (.ok true, q) ∧ p.Moved p.consumer.next item bytes q := by
  have hsits := sits_of_expects hs.laidOut hfollows hitem
  obtain ⟨q, hunmoved, hread⟩ := read_eq_prepare hs hitem hvisible
  have hsame := hunmoved
  obtain ⟨seen, -, rfl⟩ := hsame
  obtain ⟨r, hprepare, hprepares⟩ := prepare_of_visible (p := p.look seen) hs.laidOut
    (hunmoved.follows hfollows) hsits hvisible hinspect
  exact ⟨r, hread.trans hprepare,
    ((hprepares.of_unmoved hunmoved).moved hs.laidOut hfollows hsits).1⟩

theorem read_of_failed (hs : p.schema.Measured) (hitem : p.Expects item) {fault : Fault}
    (hvisible : p.consumer.next + item.words p.schema ≤ p.ring.head.words)
    (hinspect : p.inspect p.consumer.next item = .error fault) :
    ∃ q, p.Unmoved q ∧ p.read = (.error fault, q) := by
  obtain ⟨q, hunmoved, hread⟩ := read_eq_prepare hs hitem hvisible
  have hsame := hunmoved
  obtain ⟨seen, -, rfl⟩ := hsame
  obtain ⟨r, hagain, hprepare⟩ := prepare_of_failed (p := p.look seen) hvisible hinspect
  exact ⟨r, hunmoved.trans hagain, hread.trans hprepare⟩

/-- A read refuses the item that is due if only a part of it is published. Where a message is due
its id has to be. -/
theorem read_of_split (hitem : p.Expects item)
    (hid : p.isMessageDue = true → p.consumer.next + p.schema.idDistance < p.ring.head.words)
    (hstart : p.consumer.next < p.ring.head.words)
    (hpart : p.ring.head.words < p.consumer.next + item.words p.schema)
    (hseen : p.consumer.seenHead ≤ p.ring.head.words) :
    p.read.1 = .error (.error (.ofSplit p.consumer.next (item.words p.schema)
      p.ring.head.words)) := by
  obtain ⟨q, hunmoved, hread⟩ := read_eq_prepare_of_id hitem hid
  obtain ⟨seen, hlast, rfl⟩ := hunmoved
  have hlook : (p.look seen).consumer.seenHead ≤ p.ring.head.words := by
    rcases hlast with rfl | rfl
    · exact hseen
    · exact Nat.le_refl _
  obtain ⟨r, -, hawait⟩ := await_of_split (p := p.look seen) hstart hpart hlook
  rw [hread, prepare]
  simp only [schema_look, hawait]
  rfl

/-- Where nothing is published no read finds anything. -/
theorem read_of_unpublished (hs : p.schema.Measured) (hfollows : p.consumer.Follows p.schema)
    (hhead : p.ring.head.words ≤ p.consumer.next)
    (hseen : p.consumer.seenHead ≤ p.ring.head.words) : p.read.1 = .ok false := by
  unfold read
  cases hdue : p.isMessageDue with
  | true =>
    obtain ⟨q, hawait⟩ := await_of_unpublished hhead hseen (Nat.succ_pos p.schema.idDistance)
    simp only [↓reduceIte, readMessage, hawait]
  | false =>
    obtain ⟨f, hf⟩ := isSome_of_not_due hfollows hdue
    have hwords := hs.base_lt_words hf
    obtain ⟨q, hawait⟩ := await_of_unpublished hhead hseen (show 0 < f.words by omega)
    have hitem : ReadItem.words p.schema (.continuation f) = f.words := rfl
    simp only [Bool.false_eq_true, ↓reduceIte, readContinuation, hdue, hf, prepare, hitem, hawait]

end Attempts

end Pipe

end FragmentPipe
