import FragmentPipe.Proofs.Stream.Guides
import FragmentPipe.Proofs.Stream.Ledger
import FragmentPipe.Proofs.Stream.Lodged

set_option autoImplicit false

namespace FragmentPipe

namespace Ring

def SpanWithin (r : Ring) (base position low high : Nat) : Prop :=
  ∀ i, base + (r.spanAt position).1 ≤ i →
    i < base + (r.spanAt position).1 + (r.spanAt position).2 → low ≤ i ∧ i < high

structure BearsMarker (r : Ring) (s : Schema) (start bytes : Nat) (complete : Prop) : Prop where
  id : r.word (start + s.idDistance) = -1
  trailer : complete → r.word (start + s.idDistance + 1) = Int32.ofNat bytes

structure BearsFragment (r : Ring) (s : Schema) (start : Mark) (base bytes : Nat)
    (written : Nat → Bool) (told complete : Prop) (f : Fragment) (d : FragmentData) : Prop where
  id : f.startsMessage = true → r.word (start.words + s.idDistance) = Int32.ofNat f.start
  length : told → r.lengthOf s start.words f = d.length s
  span : ∀ position e offset, s.Field f position e offset → e.token.shape? = some .bytes →
    written position = true →
      r.SpanWithin base (start.words + offset) start.bytes (start.bytes + bytes)
  trailer : complete → r.word (start.words + f.words - 1) = Int32.ofNat bytes

/-- A ring bears a piece that was opened: its id, its sequence length once it was told, the spans
of the fields that were written, and its bytes once no more are written. -/
def Bears (r : Ring) (s : Schema) (start : Mark) (base bytes : Nat) (written : Nat → Bool)
    (told complete : Prop) : Piece → Prop
  | .marker => r.BearsMarker s start.words bytes complete
  | .fragment _ _ d => ∀ f, s.fragment? d.cursor = some f →
      r.BearsFragment s start base bytes written told complete f d

section

variable {r r' : Ring} {s : Schema} {f : Fragment} {d : FragmentData} {start : Mark}
  {base base' bytes : Nat} {written : Nat → Bool} {told complete : Prop} {piece : Piece}

theorem SpanWithin.mono {position low high high' : Nat} (h : r.SpanWithin base position low high)
    (hmore : high ≤ high') : r.SpanWithin base position low high' :=
  fun i hi hi' => ⟨(h i hi hi').1, Nat.lt_of_lt_of_le (h i hi hi').2 hmore⟩

theorem Stores.spanWithin {position low high low' high' : Nat} {value : Value}
    (h : r.Stores base position low high .bytes value)
    (hbytes : value.byteLength = 0 ∨ (base' = base ∧ low' ≤ low ∧ high ≤ high')) :
    r.SpanWithin base' position low' high' := by
  intro i hi hi'
  rcases hbytes with hempty | ⟨rfl, hlow, hhigh⟩
  · have hlength : (r.spanAt position).2 = value.byteLength := by
      rw [← h.value]
      simp [valueAt, spanBytes, Value.byteLength]
    omega
  · obtain ⟨hfirst, hlast⟩ := h.span rfl
    omega

theorem lengthOf_congr (hs : s.Measured) {cursor : Int} (hf : s.fragment? cursor = some f)
    {position : Nat}
    (hsame : ∀ i, i + 1 < f.words → r'.word (position + i) = r.word (position + i)) :
    r'.lengthOf s position f = r.lengthOf s position f := by
  obtain ⟨last, final, -, hspan, hstop, hfinal, -⟩ := hs.words_eq hf
  obtain ⟨offset, hfield⟩ := hs.exists_field hf hspan.le (by omega) hfinal
  unfold lengthOf Schema.lastOf?
  simp only [hstop, Nat.add_sub_cancel, hfinal, Option.map_some]
  split
  · rename_i hlength
    have hlt := hfield.lt_words
    rw [Token.words_of_shape? (Token.shape?_of_isLength hlength)] at hlt
    rw [hfield.wordDistance, hsame _ hlt]
  · rfl

theorem SpanWithin.of_words {position low high : Nat} (h : r.SpanWithin base position low high)
    (hsame : ∀ i, i < 2 → r'.word (position + i) = r.word (position + i)) :
    r'.SpanWithin base position low high := by
  unfold SpanWithin
  rw [spanAt_congr hsame]
  exact h

theorem BearsFragment.of_words (hs : s.Measured) {cursor : Int} (hf : s.fragment? cursor = some f)
    (h : r.BearsFragment s start base bytes written told complete f d)
    (hsame : ∀ i, i + 1 < f.words → r'.word (start.words + i) = r.word (start.words + i))
    {complete' : Prop}
    (htrailer : complete' → r'.word (start.words + f.words - 1) = Int32.ofNat bytes) :
    r'.BearsFragment s start base bytes written told complete' f d := by
  have hbase := hs.base_lt_words hf
  refine ⟨fun hstarts => ?_, fun htold => ?_, fun position e offset hfield hshape hwritten => ?_,
    htrailer⟩
  · rw [Schema.base, if_pos hstarts] at hbase
    rw [hsame _ hbase]
    exact h.id hstarts
  · rw [lengthOf_congr hs hf hsame]
    exact h.length htold
  · have hlt := hfield.lt_words
    rw [Token.words_of_shape? hshape] at hlt
    refine (h.span position e offset hfield hshape hwritten).of_words fun i hi => ?_
    rw [Nat.add_assoc]
    exact hsame _ (by simp only [Shape.words] at hlt; omega)

theorem Bears.of_words (hs : s.Measured)
    (h : r.Bears s start base bytes written told complete piece)
    (hsame : ∀ i, i < (piece.extent s).words →
      r'.word (start.words + i) = r.word (start.words + i)) :
    r'.Bears s start base bytes written told complete piece := by
  cases piece with
  | marker =>
    refine ⟨?_, fun hcomplete => ?_⟩
    · rw [hsame _ (show s.idDistance < s.idDistance + 2 by omega)]
      exact h.id
    · rw [Nat.add_assoc, hsame _ (show s.idDistance + 1 < s.idDistance + 2 by omega)]
      exact h.trailer hcomplete
  | fragment m index d =>
    intro f hf
    simp only [Piece.extent, hf] at hsame
    have hbase := hs.base_lt_words hf
    refine (h f hf).of_words hs hf (fun i hi => hsame i (by omega)) fun hcomplete => ?_
    rw [Nat.add_sub_assoc (by omega), hsame _ (by omega), ← Nat.add_sub_assoc (by omega)]
    exact (h f hf).trailer hcomplete

theorem Bears.imp {bytes' : Nat} {told' complete' : Prop}
    (h : r.Bears s start base bytes written told complete piece) (hmore : bytes ≤ bytes')
    (htold : told' → told) (hcomplete : complete' → complete ∧ bytes' = bytes) :
    r.Bears s start base bytes' written told' complete' piece := by
  cases piece with
  | marker =>
    refine ⟨h.id, fun hnow => ?_⟩
    rw [(hcomplete hnow).2]
    exact h.trailer (hcomplete hnow).1
  | fragment m index d =>
    intro f hf
    refine ⟨(h f hf).id, fun hnow => (h f hf).length (htold hnow),
      fun position e offset hfield hshape hwritten => ?_, fun hnow => ?_⟩
    · exact ((h f hf).span position e offset hfield hshape hwritten).mono
        (Nat.add_le_add_left hmore _)
    · rw [(hcomplete hnow).2]
      exact (h f hf).trailer (hcomplete hnow).1

theorem Bears.tell (h : r.Bears s start base bytes written told complete piece)
    (htells : r.Tells s start.words piece) :
    r.Bears s start base bytes written True complete piece := by
  cases piece with
  | marker => exact h
  | fragment m index d =>
    exact fun f hf => ⟨(h f hf).id, fun _ => htells f hf, (h f hf).span, (h f hf).trailer⟩

theorem Bears.guides (h : r.Bears s start base bytes written told complete piece) (htold : told)
    (hcomplete : complete) : r.GuidesPast s start.words bytes piece := by
  cases piece with
  | marker => exact ⟨h.id, h.trailer hcomplete⟩
  | fragment m index d =>
    exact fun f hf => ⟨(h f hf).id, (h f hf).length htold, (h f hf).trailer hcomplete⟩

end

end Ring

namespace Ledger

variable {s : Schema} {l : List Piece} {b : Ledger} {k : Nat}

def Complete (b : Ledger) (k : Nat) : Prop := k + 1 < b.opened ∨ b.filling = false

def account (b : Ledger) (s : Schema) (l : List Piece) (told : Nat) : Account :=
  fun k _ complete r piece =>
    r.Bears s (b.mark s l k) (b.base k) (b.bytes k) (b.written k) (k < told) complete piece

theorem row (b : Ledger) (s : Schema) (l : List Piece) : Row s l (b.mark s l) where
  mono := fun _ _ hle => b.mark_mono s l hle
  apart := fun j k piece hpiece hlt => by
    have hend := (b.mark_mono s l (show j + 1 ≤ k from hlt)).1
    rw [b.mark_succ hpiece] at hend
    exact hend

theorem local_account (hs : s.Measured) (b : Ledger) (l : List Piece) (told : Nat) :
    (b.account s l told).Local s (b.mark s l) fun k _ => b.bytes k where
  imp := fun hbears _ himp => hbears.imp (Nat.le_refl _) id fun hcomplete => ⟨himp hcomplete, rfl⟩
  keeps := fun hbears hkeeps => hbears.of_words hs fun i hi =>
    hkeeps.words _ (Nat.le_add_right _ _) (Nat.add_lt_add_left hi _)
  sealed := fun {k high index complete r r' m d f} hbears hf hkeeps htrailer => by
    intro f' hf'
    rw [hf] at hf'
    cases hf'
    have hbase := hs.base_lt_words hf
    exact (hbears f hf).of_words hs hf
      (fun i hi => hkeeps.words _ (Nat.le_add_right _ _) (by simp only; omega)) fun _ => htrailer

theorem account_opens (base told : Nat) (hk : k < b.opened) :
    (b.opens base).account s l told k = b.account s l told k := by
  have hne : k ≠ b.opened := Nat.ne_of_lt hk
  unfold account
  rw [b.mark_opens base (Nat.le_of_lt hk), b.base_opens base hne, b.bytes_opens base hne,
    b.written_opens base hne]

theorem bytes_posts {j position count : Nat} (h : k + 1 < b.opened ∨ count = 0) :
    (b.posts j position count).bytes k = b.bytes k := by
  show update b.bytes (b.opened - 1) (b.bytes (b.opened - 1) + count) k = b.bytes k
  unfold update
  split
  · rename_i hlast
    subst hlast
    omega
  · rfl

end Ledger

namespace Pipe

/-- The state of the producer and of the ring beside a ledger, where so many pieces have told their
sequence lengths. -/
structure Covers (s : Schema) (l : List Piece) (p : Pipe) (b : Ledger) (told : Nat) : Prop extends
    p.Lodges s l (b.mark s l) (b.account s l told) (b.read - 1) b.opened where
  read_le : b.read ≤ b.published
  published_le : b.published ≤ b.opened
  published : p.ring.head = b.mark s l b.published
  head : p.producer.head = b.mark s l b.opened
  settled : b.filling = false → p.producer.pending = none
  filling : b.filling = true → b.published < b.opened ∧ p.producer.pending ≠ none
  base : ∀ k piece, l[k]? = some piece → k < b.opened →
    b.base k = (b.mark s l (k - piece.index)).bytes

section Steps

variable {s : Schema} {l : List Piece} {p q : Pipe} {b : Ledger} {k told : Nat} {piece : Piece}

theorem Covers.complete_iff (h : p.Covers s l b told) (k : Nat) :
    (k + 1 < b.opened ∨ p.producer.pending = none) ↔ b.Complete k := by
  refine or_congr_right ⟨fun hnone => ?_, h.settled⟩
  cases hfilling : b.filling with
  | false => rfl
  | true => exact absurd hnone (h.filling hfilling).2

theorem Covers.bears (h : p.Covers s l b told) (k : Nat) (piece : Piece)
    (hpiece : l[k]? = some piece) (hk : k < b.opened) (hread : b.read ≤ k + 1) :
    p.ring.Bears s (b.mark s l k) (b.base k) (b.bytes k) (b.written k) (k < told) (b.Complete k)
      piece := by
  rw [← h.complete_iff k]
  exact h.accounts k piece hpiece hk (Nat.sub_le_of_le_add hread)

theorem Covers.byteBase (h : p.Covers s l b told) (k : Nat) (hk : b.opened = k + 1) :
    p.producer.byteBase = b.base k := by
  obtain ⟨piece, hpiece⟩ := h.exists_piece (show k < b.opened by omega)
  rw [h.spans k piece hk hpiece, h.base k piece hpiece (by omega)]

theorem Covers.tail_le (h : p.Covers s l b told) (hread : b.read ≤ k + 1) :
    p.ring.tail ≤ b.mark s l k :=
  h.toLodges.tail_le (b.row s l) (Nat.sub_le_of_le_add hread)

theorem Covers.byteBase_le (h : p.Covers s l b told) (hopened : 0 < b.opened) :
    p.producer.byteBase ≤ p.producer.head.bytes := by
  obtain ⟨k, hk⟩ : ∃ k, b.opened = k + 1 := ⟨b.opened - 1, by omega⟩
  obtain ⟨piece, hpiece⟩ := h.exists_piece (show k < b.opened by omega)
  rw [h.spans k piece hk hpiece, h.head]
  exact (b.mark_mono s l (by omega)).2

theorem Covers.bytes_eq (h : p.Covers s l b told) (hk : b.opened = k + 1)
    (hpiece : l[k]? = some piece) :
    p.producer.head.bytes - (b.mark s l k).bytes = b.bytes k := by
  rw [h.head, hk, b.mark_succ hpiece]
  exact Nat.add_sub_cancel_left _ _

theorem Covers.glance (h : p.Covers s l b told) (seen : Mark) : (p.glance seen).Covers s l b told :=
  { h with toLodges := h.toLodges.glance seen }

theorem Covers.storeTrailer (hs : s.Measured) (hordered : p.Ordered) (h : p.Covers s l b told) :
    p.storeTrailer.Covers s l b.closes told where
  toLodges := h.toLodges.storeTrailer hs (b.row s l) (b.local_account hs l told) hordered
    fun _ _ hk hpiece => h.bytes_eq hk hpiece
  read_le := h.read_le
  published_le := h.published_le
  published := p.ring_head_storeTrailer.trans h.published
  head := p.head_storeTrailer.trans h.head
  settled := fun _ => p.pending_storeTrailer
  filling := nofun
  base := h.base

/-- Every piece that was opened has told its sequence length. -/
theorem Covers.tell (h : p.Covers s l b told) (hpublished : b.published ≤ told)
    (htells : p.TellsLengths s l b) (later : Nat) : p.Covers s l b later := by
  refine { h with toLodges := { h.toLodges with accounts := fun k piece hpiece hk hfirst => ?_ } }
  have hbears := h.accounts k piece hpiece hk hfirst
  by_cases hbefore : k < told
  · exact hbears.imp (Nat.le_refl _) (fun _ => hbefore) fun hcomplete => ⟨hcomplete, rfl⟩
  · exact (hbears.tell (htells k piece hpiece (by omega) hk)).imp (Nat.le_refl _)
      (fun _ => trivial) fun hcomplete => ⟨hcomplete, rfl⟩

theorem Covers.publish (hs : s.Measured) (hordered : p.Ordered) (h : p.Covers s l b told) :
    p.publish.Covers s l b.publishes told :=
  have hstored := h.storeTrailer hs hordered
  { toLodges := h.toLodges.publish hs (b.row s l) (b.local_account hs l told) hordered
      fun _ _ hk hpiece => h.bytes_eq hk hpiece
    read_le := Nat.le_trans h.read_le h.published_le
    published_le := Nat.le_refl _
    published := hstored.head
    head := hstored.head
    settled := fun _ => p.pending_storeTrailer
    filling := nofun
    base := h.base }

theorem Covers.bases_opens (h : p.Covers s l b told) (hnext : l[b.opened]? = some piece)
    {base : Nat}
    (hbase : base = (b.mark s l (b.opened - piece.index)).bytes) {j : Nat} {other : Piece}
    (hj : l[j]? = some other) (hlt : j < b.opened + 1) :
    (b.opens base).base j = ((b.opens base).mark s l (j - other.index)).bytes := by
  rw [b.mark_opens base (show j - other.index ≤ b.opened by omega)]
  by_cases hlast : j = b.opened
  · subst hlast
    rw [hnext] at hj
    cases hj
    rw [b.base_opens_self]
    exact hbase
  · rw [b.base_opens base hlast]
    exact h.base j other hj (by omega)

end Steps

section Stream

variable {s : Schema} {items : List StreamItem} {p q : Pipe} {b : Ledger} {k told : Nat}

theorem Covers.opens (hs : s.Measured) (hfits : StreamFits s items)
    (h : p.Covers s (piecesOf items) b told) (hclosed : b.filling = false)
    (htold : told ≤ b.opened) {m : MessageData} {index : Nat} {d : FragmentData}
    (hnext : (piecesOf items)[b.opened]? = some (.fragment m index d)) {f : Fragment}
    (hf : s.fragment? d.cursor = some f) {depth : Nat} (hopens : Opens f depth p q)
    (hroom : p.producer.head.words + f.words ≤ p.ring.tail.words + p.ring.capacity.words) :
    q.Covers s (piecesOf items) (b.opens q.producer.byteBase) told := by
  have hlodges : q.Lodges s (piecesOf items) ((b.opens q.producer.byteBase).mark s (piecesOf items))
      ((b.opens q.producer.byteBase).account s (piecesOf items) told) (b.read - 1)
        (b.opened + 1) := by
    refine h.toLodges.opens hs hfits (b.row s _) (b.local_account hs _ told) (h.settled hclosed)
      h.head hnext hf hopens hroom (fun k hk => b.mark_opens _ hk)
      (fun k hk => b.account_opens _ told hk) fun hid complete hopen => ?_
    intro f' hf'
    rw [hf] at hf'
    cases hf'
    rw [b.mark_opens _ (Nat.le_refl _), b.written_opens_self]
    exact ⟨hid, fun hearly => absurd hearly (Nat.not_lt.2 htold),
      fun _ _ _ _ _ hnone => absurd hnone Bool.false_ne_true, fun hdone => absurd hdone hopen⟩
  refine ⟨hlodges, h.read_le, Nat.le_succ_of_le h.published_le, ?_, ?_,
    fun hclosed => absurd hclosed.symm Bool.false_ne_true,
    fun _ => ⟨Nat.lt_succ_of_le h.published_le, ?_⟩, fun j piece hj hlt => ?_⟩
  · rw [b.mark_opens _ (by exact h.published_le), hopens.ring_ends.1]
    exact h.published
  · show q.producer.head = (b.opens q.producer.byteBase).mark s (piecesOf items) (b.opened + 1)
    rw [Ledger.mark_succ hnext, b.mark_opens _ (Nat.le_refl _), b.bytes_opens_self, hopens.head,
      h.head, Piece.extent, hf]
    rfl
  · rw [hopens.pending]
    exact Option.some_ne_none _
  · refine h.bases_opens hnext ?_ hj hlt
    rw [hlodges.spans b.opened _ rfl hnext, b.mark_opens _ (Nat.sub_le _ _)]

theorem Covers.openAt (hs : s.Measured) (hfits : StreamFits s items) (hordered : p.Ordered)
    (h : p.Covers s (piecesOf items) b told) (htold : told ≤ b.opened) {m : MessageData}
    {index : Nat} {d : FragmentData}
    (hnext : (piecesOf items)[b.opened]? = some (.fragment m index d)) {bytes : Nat}
    (hopen : p.openAt d.cursor bytes = (.ok true, q)) :
    q.Covers s (piecesOf items) (b.opens q.producer.byteBase) told := by
  obtain ⟨f, seen, hf, hseen, -, hopens, hroom⟩ := opens_of_ordered hordered hopen
  rw [h.schema] at hf
  have hstored := (h.glance seen).storeTrailer hs (hordered.glance hseen)
  refine Covers.opens (b := b.closes) hs hfits hstored rfl htold hnext hf hopens ?_
  rw [head_storeTrailer, ring_tail_storeTrailer, capacity_storeTrailer]
  exact hroom

section Puts

variable {l : List Piece} (hs : s.Measured) (h : p.Covers s l b told) {m : MessageData}
  {index : Nat} {d : FragmentData} {f : Fragment} (hpiece : l[k]? = some (.fragment m index d))
  (hopened : k < b.opened) (hf : s.fragment? d.cursor = some f) {position offset : Nat} {e : Entry}
  {value : Value} (hfield : s.Field f position e offset)
  (hshape : e.token.shape? = some value.shape)
  (hfilling : 0 < value.byteLength → b.filling = true)
  (hputs : Puts ((b.mark s l k).words + offset) value p q)

include h hfilling in
theorem Covers.bytes_posts {j : Nat} (hj : j < b.published ∨ b.Complete j) :
    (b.posts k position value.byteLength).bytes j = b.bytes j := by
  apply Ledger.bytes_posts
  rcases Nat.eq_zero_or_pos value.byteLength with hzero | hpos
  · exact .inr hzero
  · have hunpublished := (h.filling (hfilling hpos)).1
    rcases hj with hpublished | hbefore | hclosed
    · exact .inl (by omega)
    · exact .inl hbefore
    · rw [hfilling hpos] at hclosed
      cases hclosed

include hs h hpiece hopened hf hfield hshape hputs in
/-- The span of a field that was written covers bytes of its own piece only. -/
theorem Covers.span_puts (hread : b.read ≤ k + 1) {other offset' : Nat} {e' : Entry}
    (hother : s.Field f other e' offset') (hbytes : e'.token.shape? = some .bytes)
    (hwritten : (b.posts k position value.byteLength).written k other = true) :
    q.ring.SpanWithin (b.base k) ((b.mark s l k).words + offset') (b.mark s l k).bytes
      ((b.mark s l k).bytes + (b.posts k position value.byteLength).bytes k) := by
  by_cases hsame : other = position
  · subst hsame
    obtain ⟨rfl, rfl⟩ := hfield.unique hother
    rw [hshape] at hbytes
    have hstores := hputs.stores
    rw [Option.some.inj hbytes] at hstores
    rw [b.written_posts_self, decide_eq_true_iff] at hwritten
    refine hstores.spanWithin (hwritten.imp id fun hlast => ⟨?_, ?_, ?_⟩)
    · exact (h.byteBase k hlast).symm
    · rw [h.head]
      exact (b.mark_mono s l (Nat.le_of_lt hopened)).2
    · rw [hputs.head, h.head, hlast, b.mark_succ hpiece, b.bytes_posts_opened _ _ _ hlast]
      simp only [Mark.bytes_add, Mark.ofBytes]
      omega
  · rw [b.written_posts_of_ne (.inr hsame)] at hwritten
    have hlt := hfield.lt_words
    have hlt' := hother.lt_words
    have hapart : offset' + 2 ≤ offset ∨ offset + value.shape.words ≤ offset' := by
      rw [← Token.words_of_shape? hshape, show 2 = Shape.words .bytes from rfl,
        ← Token.words_of_shape? hbytes]
      exact hs.fields_apart hf hfield hother hsame
    rw [Token.words_of_shape? hbytes] at hlt'
    have hend := (b.mark_mono s l (show k + 1 ≤ b.opened from hopened)).1
    rw [b.mark_succ hpiece, Piece.extent, hf] at hend
    have htail := (h.tail_le hread).1
    have hspan := (h.bears k _ hpiece hopened hread f hf).span other e' offset' hother hbytes
      hwritten
    refine (hspan.of_words fun i hi => hputs.word_eq (by omega) ?_ (by omega)).mono ?_
    · rw [h.head]
      simp only [Mark.words_add, Shape.words] at hend hlt'
      omega
    · exact Nat.add_le_add_left (b.le_bytes_posts _ _ _ _) _

include hs h hpiece hopened hf hfield hshape hfilling hputs in
/-- Of the words that lead a reader past a piece the values of its fields touch none but a sequence
length that is not told yet. -/
theorem Covers.bears_puts (htold : told ≤ k) {j : Nat} {other : Piece} (hj : l[j]? = some other)
    (hlt : j < b.opened) (hread : b.read ≤ j + 1) :
    q.ring.Bears s ((b.posts k position value.byteLength).mark s l j) (b.base j)
      ((b.posts k position value.byteLength).bytes j)
      ((b.posts k position value.byteLength).written j) (j < told) (b.Complete j) other := by
  have hlow := hfield.base_le
  have hhigh := hfield.lt_words
  rw [Token.words_of_shape? hshape] at hhigh
  have hwords : (b.mark s l (k + 1)).words = (b.mark s l k).words + f.words := by
    rw [b.mark_succ hpiece, Piece.extent, hf]
    rfl
  have hnext : (b.mark s l (j + 1)).words = (b.mark s l j).words + (other.extent s).words := by
    rw [b.mark_succ hj]
    rfl
  have hend := (b.mark_mono s l (show j + 1 ≤ b.opened from hlt)).1
  have htail := (h.tail_le hread).1
  have hkept : ∀ i, p.ring.tail.words ≤ i → i < (b.mark s l b.opened).words →
      (i < (b.mark s l k).words + offset ∨
        (b.mark s l k).words + offset + value.shape.words ≤ i) →
      q.ring.word i = p.ring.word i :=
    fun i hi hi' => hputs.word_eq hi (by rw [h.head]; exact hi')
  have hbears := h.bears j other hj hlt hread
  rw [b.mark_posts _ _ _ hlt]
  by_cases hsame : j = k
  · subst hsame
    rw [hpiece] at hj
    cases hj
    intro f' hf'
    rw [hf] at hf'
    cases hf'
    have hbase := hs.base_lt_words hf
    refine ⟨fun hmessage => ?_, fun hearly => absurd hearly (by omega),
      fun other e' offset' hother hbytes hwritten => ?_, fun hnow => ?_⟩
    · rw [Schema.base, if_pos hmessage] at hlow hbase
      rw [hkept _ (by omega) (by omega) (by omega)]
      exact (hbears f hf).id hmessage
    · exact h.span_puts hs hpiece hopened hf hfield hshape hputs hread hother hbytes hwritten
    · rw [hkept _ (by omega) (by omega) (by omega), h.bytes_posts hfilling (.inr hnow)]
      exact (hbears f hf).trailer hnow
  · have hrow : (b.posts k position value.byteLength).written j = b.written j :=
      funext fun _ => b.written_posts_of_ne (.inl hsame)
    rw [hrow]
    refine (hbears.of_words hs fun i hi => hkept _ (by omega) (by omega) ?_).imp
      (b.le_bytes_posts _ _ _ _) id fun hnow => ⟨hnow, h.bytes_posts hfilling (.inr hnow)⟩
    rcases Nat.lt_or_gt_of_ne hsame with hbefore | hbehind
    · have := (b.mark_mono s l (show j + 1 ≤ k from hbefore)).1
      omega
    · have := (b.mark_mono s l (show k + 1 ≤ j from hbehind)).1
      omega

include hs h hpiece hopened hf hfield hshape hfilling hputs in
/-- A value is put to a field of a fragment whose sequence length is still to be told. -/
theorem Covers.puts (htold : told ≤ k) :
    q.Covers s l (b.posts k position value.byteLength) told := by
  have hread := Nat.le_trans h.read_le h.published_le
  have hpublished : (b.posts k position value.byteLength).mark s l b.published =
      b.mark s l b.published :=
    Ledger.mark_congr fun i hi => h.bytes_posts hfilling (.inl hi)
  refine ⟨h.toLodges.puts hputs (b.mark_posts _ _ _ (by omega)) (fun j hj => b.mark_posts _ _ _ hj)
      fun j other hj hlt hfirst => ?_, h.read_le, h.published_le,
    hputs.ring_head.trans (h.published.trans hpublished.symm), ?_,
    fun hnot => hputs.pending.trans (h.settled hnot),
    fun hnow => ⟨(h.filling hnow).1, hputs.pending ▸ (h.filling hnow).2⟩, fun j other hj hlt => ?_⟩
  · rw [hputs.pending, h.complete_iff j]
    exact h.bears_puts hs hpiece hopened hf hfield hshape hfilling hputs htold hj hlt (by omega)
  · obtain ⟨j, hj⟩ : ∃ j, b.opened = j + 1 := ⟨b.opened - 1, by omega⟩
    show q.producer.head = (b.posts k position value.byteLength).mark s l b.opened
    rw [hj, Ledger.mark_posts_opened _ _ _ hj, hputs.head, h.head, hj]
  · rw [b.mark_posts _ _ _ (Nat.lt_of_le_of_lt (Nat.sub_le _ _) hlt)]
    exact h.base j other hj hlt

end Puts

theorem Covers.puts_of_write {l : List Piece} (hs : s.Measured) (hordered : p.Ordered)
    (h : p.Covers s l b told) {m : MessageData} {index : Nat} {d : FragmentData}
    (hpiece : l[k]? = some (.fragment m index d)) (hunpublished : b.published ≤ k)
    (hopened : k < b.opened) {position : Nat} {loc : Locator} {value : Value}
    (hfield : s.HasField d.cursor position loc value.shape)
    (hstart : p.producer.starts[loc.depth]? = some (b.mark s l k).words)
    (hwrite : p.write loc value = (.ok (), q)) :
    ∃ f e offset, s.fragment? d.cursor = some f ∧ s.Field f position e offset ∧
      e.token.shape? = some value.shape ∧ Puts ((b.mark s l k).words + offset) value p q := by
  obtain ⟨f, e, offset, hf, hplaced, hshape, rfl⟩ := hfield.field hs
  have hhigh := hplaced.lt_words
  rw [Token.words_of_shape? hshape] at hhigh
  have hwords : (b.mark s l (k + 1)).words = (b.mark s l k).words + f.words := by
    rw [b.mark_succ hpiece, Piece.extent, hf]
    rfl
  have hend := (b.mark_mono s l (show k + 1 ≤ b.opened from hopened)).1
  have hread := Nat.le_trans h.read_le hunpublished
  have htail := h.tail_le (show b.read ≤ k + 1 by omega)
  have htailBytes := (Mark.le_trans htail (b.mark_mono s l (Nat.le_of_lt hopened))).2
  rw [← h.head] at hend htailBytes
  have htailWords := htail.1
  rcases write_puts ⟨f.depth, offset⟩ value hordered hstart (by simp only; omega)
    (by simp only; omega) htailBytes (h.byteBase_le (by omega)) with
    ⟨q', hdone, hputs⟩ | ⟨fault, seen, hrefused⟩
  · rw [hwrite] at hdone
    cases hdone
    exact ⟨f, e, offset, hf, hplaced, hshape, hputs⟩
  · rw [hwrite] at hrefused
    cases hrefused

theorem Covers.marks (hs : s.Measured) (hfits : StreamFits s items)
    (h : p.Covers s (piecesOf items) b told) (hclosed : b.filling = false)
    (hnext : (piecesOf items)[b.opened]? = some .marker) {seen : Mark} (hmarks : Marks seen p q)
    (hroom : p.producer.head.words + (s.idDistance + 2) ≤
      p.ring.tail.words + p.ring.capacity.words) :
    q.Covers s (piecesOf items) (b.opens q.producer.byteBase).publishes told := by
  have hlodges : q.Lodges s (piecesOf items) ((b.opens q.producer.byteBase).mark s (piecesOf items))
      ((b.opens q.producer.byteBase).account s (piecesOf items) told) (b.read - 1)
        (b.opened + 1) := by
    refine h.toLodges.marks hs hfits (b.row s _) (b.local_account hs _ told) (h.settled hclosed)
      h.head hnext hmarks hroom (fun k hk => b.mark_opens _ hk)
      (fun k hk => b.account_opens _ told hk) fun hid htrailer complete => ?_
    unfold Ledger.account
    rw [b.mark_opens _ (Nat.le_refl _), b.bytes_opens_self]
    exact ⟨hid, fun _ => htrailer⟩
  have hhead : q.producer.head =
      (b.opens q.producer.byteBase).mark s (piecesOf items) (b.opened + 1) := by
    rw [Ledger.mark_succ hnext, b.mark_opens _ (Nat.le_refl _), b.bytes_opens_self, hmarks.head,
      h.head, h.schema, hs.marker_eq]
    rfl
  refine ⟨hlodges, Nat.le_succ_of_le (Nat.le_trans h.read_le h.published_le), Nat.le_refl _,
    hmarks.published.trans hhead, hhead, fun _ => hmarks.pending,
    fun hfilling => absurd hfilling Bool.false_ne_true, fun j piece hj hlt => ?_⟩
  refine h.bases_opens hnext ?_ hj hlt
  rw [hlodges.spans b.opened _ rfl hnext, b.mark_opens _ (Nat.sub_le _ _)]

theorem Covers.publishMarker (hs : s.Measured) (hfits : StreamFits s items) (hordered : p.Ordered)
    (h : p.Covers s (piecesOf items) b told)
    (hnext : (piecesOf items)[b.opened]? = some .marker)
    (hmarker : p.publishMarker = (true, q)) :
    q.Covers s (piecesOf items) (b.opens q.producer.byteBase).publishes told := by
  obtain rfl := h.schema
  obtain ⟨seen, hmarks, hroom⟩ := marks_of_ordered hs hordered hmarker
  refine Covers.marks (b := b.closes) hs hfits (h.storeTrailer hs hordered) rfl hnext hmarks ?_
  rw [head_storeTrailer, ring_tail_storeTrailer, capacity_storeTrailer]
  exact hroom

theorem Covers.publishMarker_refused {l : List Piece} (hs : s.Measured) (hordered : p.Ordered)
    (h : p.Covers s l b told) (hmarker : p.publishMarker = (false, q)) :
    q.Covers s l b.closes told := by
  rcases p.publishMarker_cases with ⟨seen, -, -, hcase⟩ | ⟨-, hcase⟩ <;>
    rw [hcase] at hmarker <;> cases hmarker
  exact (h.storeTrailer hs hordered).glance _

theorem Covers.of_consumer {l : List Piece} (hs : s.Measured) (h : p.Covers s l b told) {read : Nat}
    (hschema : q.schema = p.schema) (hproducer : q.producer = p.producer) {tail : Mark}
    (hring : q.ring = { p.ring with tail }) (htail : tail ≤ b.mark s l (read - 1))
    (hread : b.read ≤ read) (hpublished : read ≤ b.published) :
    q.Covers s l { b with read } told where
  toLodges := h.toLodges.of_consumer (b.local_account hs l told) hschema hproducer hring htail
    (Nat.sub_le_sub_right hread 1)
    (Nat.le_trans (Nat.sub_le _ _) (Nat.le_trans hpublished h.published_le))
  read_le := hpublished
  published_le := h.published_le
  published := (congrArg Ring.head hring).trans h.published
  head := (congrArg Producer.head hproducer).trans h.head
  settled := hproducer ▸ h.settled
  filling := hproducer ▸ h.filling
  base := h.base

end Stream

end Pipe

end FragmentPipe
