import FragmentPipe.Proofs.Positions
import FragmentPipe.Proofs.Reader.Trailers
import FragmentPipe.Proofs.Stream.Covered
import FragmentPipe.Proofs.Stream.Tallied

set_option autoImplicit false

namespace FragmentPipe

namespace Pipe

/-- The state of the consumer beside a ledger. -/
structure Stands (s : Schema) (l : List Piece) (p : Pipe) (b : Ledger) : Prop where
  tail : p.consumer.tail = b.mark s l (b.read - 1)
  next : p.consumer.next = (b.mark s l b.read).words
  accounted : p.consumer.accounted = (b.mark s l b.read).bytes
  awaits : p.Awaits s l b.read
  byteBase : ∀ k, b.read = k + 1 → p.consumer.byteBase = b.base k

section Keeps

variable {s : Schema} {l : List Piece} {p q : Pipe} {b c : Ledger} {k told : Nat} {piece : Piece}

theorem KeepsPrepared.awaits {read : Nat} (h : p.KeepsPrepared q) (hawaits : p.Awaits s l read) :
    q.Awaits s l read := by
  refine ⟨fun hzero => h.nextCursor.trans (hawaits.fresh hzero), fun k piece hread hpiece => ?_⟩
  obtain ⟨base, hshows⟩ := hawaits.shows k piece hread hpiece
  exact ⟨base, h.shows hshows⟩

theorem Stands.keeps (h : p.Stands s l b) (hkeeps : p.KeepsPrepared q) (hread : c.read = b.read)
    (hbytes : ∀ k, k < b.read → c.bytes k = b.bytes k)
    (hbase : ∀ k, k < b.read → c.base k = b.base k) : q.Stands s l c := by
  have hmark : ∀ k, k ≤ b.read → c.mark s l k = b.mark s l k :=
    fun k hk => Ledger.mark_congr fun i hi => hbytes i (by omega)
  refine ⟨?_, ?_, ?_, ?_, fun k hk => ?_⟩
  · rw [hkeeps.tail, h.tail, hread, hmark _ (Nat.sub_le _ _)]
  · rw [hkeeps.next, h.next, hread, hmark _ (Nat.le_refl _)]
  · rw [hread, hmark _ (Nat.le_refl _), ← h.accounted, Consumer.accounted, hkeeps.tail,
      hkeeps.fragmentBytes]
    rfl
  · rw [hread]
    exact hkeeps.awaits h.awaits
  · rw [hread] at hk
    rw [hkeeps.byteBase, h.byteBase k hk, hbase k (by omega)]

theorem Stands.of_same (h : p.Stands s l b) (hkeeps : p.KeepsPrepared q)
    (hread : c.read = b.read) (hbytes : c.bytes = b.bytes) (hbase : c.base = b.base) :
    q.Stands s l c :=
  h.keeps hkeeps hread (fun k _ => by rw [hbytes]) fun k _ => by rw [hbase]

theorem Stands.opens (h : p.Stands s l b) (hkeeps : p.KeepsPrepared q) (hopened : b.read ≤ b.opened)
    (base : Nat) : q.Stands s l (b.opens base) :=
  h.keeps hkeeps rfl (fun _ hk => if_neg (by omega)) fun _ hk => if_neg (by omega)

theorem Covers.complete (h : p.Covers s l b told) (hk : k < b.published) : b.Complete k := by
  cases hfilling : b.filling with
  | false => exact .inr hfilling
  | true =>
    have hunpublished := (h.filling hfilling).1
    exact .inl (by omega)

theorem Covers.guides (h : p.Covers s l b b.published) (hpiece : l[k]? = some piece)
    (hk : k < b.published) (hread : b.read ≤ k) :
    p.ring.GuidesPast s (b.mark s l k).words (b.bytes k) piece :=
  (h.bears k piece hpiece (Nat.lt_of_lt_of_le hk h.published_le) (Nat.le_succ_of_le hread)).guides
    hk (h.complete hk)

theorem Covers.bytes_le (hordered : p.Ordered) (h : p.Covers s l b told) (hk : k < b.opened)
    (hread : b.read ≤ k + 1) : b.bytes k ≤ p.ring.capacity.bytes := by
  obtain ⟨piece, hpiece⟩ := h.exists_piece hk
  have hend := (b.mark_mono s l (show k + 1 ≤ b.opened from hk)).2
  have htail := (h.tail_le hread).2
  have hroom := hordered.room.2
  rw [h.head] at hroom
  rw [b.mark_succ hpiece] at hend
  simp only [Mark.bytes_add] at hend hroom
  omega

end Keeps

section Reads

variable {s : Schema} {items : List StreamItem} {p q : Pipe} {b : Ledger} {piece : Piece}
  {item : ReadItem}

theorem Covers.reads (hs : s.Measured) (hfits : StreamFits s items) (hordered : p.Ordered)
    (hfollows : p.consumer.Follows p.schema) (h : p.Covers s (piecesOf items) b b.published)
    (hstands : p.Stands s (piecesOf items) b) (hk : b.read < b.published)
    (hpiece : (piecesOf items)[b.read]? = some piece) :
    ∃ q item, p.read = (.ok true, q) ∧ piece.Item s item ∧ p.Expects item ∧
      p.Moved p.consumer.next item (b.bytes b.read) q := by
  have hopened := h.published_le
  refine hstands.awaits.reads hs hfits h.schema hfollows hpiece ?_ ?_ h.capacity
    (h.bytes_le hordered (by omega) (Nat.le_succ _))
  · rw [hstands.next]
    exact h.guides hpiece hk (Nat.le_refl _)
  · have hend := (b.mark_mono s (piecesOf items) (show b.read + 1 ≤ b.published from hk)).1
    rw [b.mark_succ hpiece] at hend
    rw [hstands.next, h.published]
    exact hend

/-- A read that succeeds has moved onto the next piece of the stream. -/
theorem Covers.moved_of_read (hs : s.Measured) (hfits : StreamFits s items) (hordered : p.Ordered)
    (hfollows : p.consumer.Follows p.schema) (h : p.Covers s (piecesOf items) b b.published)
    (hstands : p.Stands s (piecesOf items) b) (hread : p.read = (.ok true, q)) :
    ∃ piece item, b.read < b.published ∧ (piecesOf items)[b.read]? = some piece ∧
      piece.Item s item ∧ p.Expects item ∧ p.Moved p.consumer.next item (b.bytes b.read) q := by
  have hlt : b.read < b.published := by
    refine Nat.lt_of_le_of_ne h.read_le fun hall => ?_
    have hnone := read_of_unpublished (h.schema.symm ▸ hs) hfollows
      (Nat.le_of_eq (by rw [h.published, hstands.next, hall])) hordered.seenHead
    rw [hread] at hnone
    cases hnone
  obtain ⟨piece, hpiece⟩ := h.exists_piece (Nat.lt_of_lt_of_le hlt h.published_le)
  obtain ⟨q', item, hdone, hitem, hexpected, hmoved⟩ :=
    h.reads hs hfits hordered hfollows hstands hlt hpiece
  rw [hread] at hdone
  cases hdone
  exact ⟨piece, item, hlt, hpiece, hitem, hexpected, hmoved⟩

theorem Moved.covers {l : List Piece} {bytes : Nat} (hs : s.Measured)
    (h : p.Covers s l b b.published) (hstands : p.Stands s l b) (hk : b.read < b.published)
    (hmoved : p.Moved p.consumer.next item bytes q) :
    q.Covers s l { b with read := b.read + 1 } b.published := by
  obtain ⟨tail, htail, hring⟩ := hmoved.ring
  refine h.of_consumer hs hmoved.schema hmoved.producer hring ?_ (Nat.le_succ _) hk
  rcases htail with rfl | rfl
  · exact Mark.le_trans h.tail (b.mark_mono s l (Nat.sub_le_sub_right (Nat.le_succ _) 1))
  · rw [hmoved.tail]
    exact ⟨Nat.le_of_eq hstands.next, Nat.le_of_eq hstands.accounted⟩

theorem Moved.stands (hs : s.Measured) (hfits : StreamFits s items)
    (hfollows : p.consumer.Follows p.schema) (h : p.Covers s (piecesOf items) b b.published)
    (hstands : p.Stands s (piecesOf items) b) (hk : b.read < b.published)
    (hpiece : (piecesOf items)[b.read]? = some piece) (hitem : piece.Item s item)
    (hexpected : p.Expects item)
    (hmoved : p.Moved p.consumer.next item (b.bytes b.read) q) :
    q.Stands s (piecesOf items) { b with read := b.read + 1 } := by
  have hopened := h.published_le
  have hguides := h.guides hpiece hk (Nat.le_refl _)
  rw [← hstands.next] at hguides
  have hshows := hmoved.shows hs hfits h.schema hfollows hstands.awaits hpiece hitem hguides
    hexpected
  have htail : q.consumer.tail = b.mark s (piecesOf items) b.read := by
    rw [hmoved.tail]
    exact Mark.ext hstands.next hstands.accounted
  have hnext : b.mark s (piecesOf items) (b.read + 1) =
      b.mark s (piecesOf items) b.read + ⟨(piece.extent s).words, b.bytes b.read⟩ :=
    b.mark_succ hpiece
  refine ⟨htail, ?_, ?_, ⟨nofun, fun k other hread hother => ?_⟩, fun k hread => ?_⟩
  · show q.consumer.next = (b.mark s (piecesOf items) (b.read + 1)).words
    rw [hmoved.next, h.schema, hitem.words hs.toAccepted, hstands.next, hnext]
    rfl
  · show q.consumer.accounted = (b.mark s (piecesOf items) (b.read + 1)).bytes
    rw [hmoved.accounted, hstands.accounted, hnext]
    rfl
  · obtain rfl : b.read = k := Nat.succ.inj hread
    rw [hpiece] at hother
    cases hother
    exact ⟨_, hshows⟩
  · obtain rfl : b.read = k := Nat.succ.inj hread
    have hbase := hmoved.byteBase_of_item hitem
    show q.consumer.byteBase = b.base b.read
    rw [h.base _ piece hpiece (by omega), hbase]
    by_cases hfirst : piece.index = 0
    · rw [if_pos hfirst, hfirst, htail]
      rfl
    · cases hitem with
      | marker | message => exact absurd rfl hfirst
      | @continuation m index e f hf =>
        obtain ⟨j, d, base, hj, hbefore, -⟩ :=
          hstands.awaits.continues hs.laidOut hfits h.schema hpiece
        rw [if_neg hfirst, hstands.byteBase j hj, h.base j _ hbefore (by omega), hj]
        simp only [Piece.index, Nat.add_sub_add_right]

end Reads

section Runs

variable {schema : Schema} {config : Config} {items : List StreamItem} {p q : Pipe}
  {b c : Ledger}

theorem covers_built (h : build schema config = .ok p) :
    p.Covers schema (piecesOf items) .blank 0 := by
  have hzero := Ledger.mark_zero schema (piecesOf items) .blank
  refine ⟨lodges_built h _ _ _, Nat.le_refl _, Nat.le_refl _, ?_, ?_, ?_, nofun,
    fun k _ _ hk => (nomatch hk)⟩ <;> rw [eq_fresh_of_build h]
  · exact hzero.symm
  · exact hzero.symm
  · exact fun _ => rfl

theorem stands_built (h : build schema config = .ok p) :
    p.Stands schema (piecesOf items) .blank := by
  have hzero := Ledger.mark_zero schema (piecesOf items) .blank
  rw [eq_fresh_of_build h]
  refine ⟨hzero.symm, ?_, ?_, ⟨fun _ => rfl, nofun⟩, nofun⟩
  · exact (congrArg Mark.words hzero).symm
  · exact (congrArg Mark.bytes hzero).symm

theorem Covers.releaseNow {l : List Piece} {told : Nat} (hs : schema.Measured)
    (h : p.Covers schema l b told) (hstands : p.Stands schema l b) :
    p.releaseNow.Covers schema l b told := by
  unfold Pipe.releaseNow release
  split
  · refine h.of_consumer hs rfl rfl rfl ?_ (Nat.le_refl _) h.read_le
    rw [hstands.tail]
    exact Mark.le_refl _
  · exact h

theorem Covers.of_unmoved {l : List Piece} {told : Nat} (hs : schema.Measured)
    (h : p.Covers schema l b told) (hunmoved : p.Unmoved q) : q.Covers schema l b told := by
  obtain ⟨seen, -, rfl⟩ := hunmoved
  exact h.of_consumer hs rfl rfl rfl h.tail (Nat.le_refl _) h.read_le

theorem Books.balances (hs : schema.Accepted) (hfits : StreamFits schema items)
    (hreachable : Reachable schema config p)
    (hcovers : p.Covers schema (piecesOf items) b b.published)
    (hstands : p.Stands schema (piecesOf items) b) (h : p.Books schema (piecesOf items) b q c) :
    q.Covers schema (piecesOf items) c c.published ∧ q.Stands schema (piecesOf items) c := by
  have hmeasured := hreachable.measured hs
  have hordered := hreachable.ordered hs
  obtain ⟨rfl, hfollows⟩ := hreachable.follows hs.compiled
  have hread := Nat.le_trans hcovers.read_le hcovers.published_le
  cases h with
  | @opens q m index d bytes hnext hopen =>
    have hkeeps := p.keepsConsumer_openAt d.cursor bytes
    rw [hopen] at hkeeps
    exact ⟨hcovers.openAt hmeasured hfits hordered hcovers.published_le hnext hopen,
      hstands.opens hkeeps.keepsPrepared hread _⟩
  | @writes q k m index d loc value position hpiece hunpublished hopened hfield hstart hfilling
      hwrite =>
    have hkeeps := p.keepsConsumer_write loc value
    rw [hwrite] at hkeeps
    obtain ⟨f, e, offset, hf, hfield, hshape, hputs⟩ :=
      hcovers.puts_of_write hmeasured hordered hpiece hunpublished hopened hfield hstart hwrite
    refine ⟨hcovers.puts hmeasured hpiece hopened hf hfield hshape hfilling hputs hunpublished,
      hstands.keeps hkeeps.keepsPrepared rfl (fun j hj => ?_) fun _ _ => rfl⟩
    exact hcovers.bytes_posts hfilling (.inl (Nat.lt_of_lt_of_le hj hcovers.read_le))
  | publishes htells =>
    exact ⟨(hcovers.tell (Nat.le_refl _) htells _).publish hmeasured hordered,
      hstands.of_same p.keepsConsumer_publish.keepsPrepared rfl rfl rfl⟩
  | marks htells hnext hmarker =>
    have hkeeps := p.keepsConsumer_publishMarker
    rw [hmarker] at hkeeps
    refine ⟨(hcovers.tell (Nat.le_refl _) htells _).publishMarker hmeasured hfits hordered hnext
      hmarker, ?_⟩
    exact (hstands.opens hkeeps.keepsPrepared hread _).of_same (Unmoved.keepsPrepared
      ⟨q.consumer.seenHead, .inl rfl, rfl⟩) rfl rfl rfl
  | refusesToMark hmarker =>
    have hkeeps := p.keepsConsumer_publishMarker
    rw [hmarker] at hkeeps
    exact ⟨hcovers.publishMarker_refused hmeasured hordered hmarker,
      hstands.of_same hkeeps.keepsPrepared rfl rfl rfl⟩
  | reads hread =>
    obtain ⟨piece, item, hlt, hpiece, hitem, hexpected, hmoved⟩ :=
      hcovers.moved_of_read hmeasured hfits hordered hfollows hstands hread
    exact ⟨hmoved.covers hmeasured hcovers hstands hlt,
      hmoved.stands hmeasured hfits hfollows hcovers hstands hlt hpiece hitem hexpected⟩
  | releases =>
    exact ⟨hcovers.releaseNow hmeasured hstands,
      hstands.of_same p.keepsPrepared_releaseNow rfl rfl rfl⟩
  | refuses action hne hrefuses =>
    rcases hrefuses.idles hs.laidOut hfollows hne with ⟨seen, heq⟩ | hunmoved
    · rw [heq]
      exact ⟨hcovers.glance seen,
        hstands.of_same (p.keepsConsumer_glance seen).keepsPrepared rfl rfl rfl⟩
    · exact ⟨hcovers.of_unmoved hmeasured hunmoved,
        hstands.of_same hunmoved.keepsPrepared rfl rfl rfl⟩

/-- A run that frames a stream keeps both halves in step with its ledger. -/
theorem Booked.balances (h : Booked schema config items p b) (hs : schema.Accepted)
    (hfits : StreamFits schema items) :
    p.Covers schema (piecesOf items) b b.published ∧ p.Stands schema (piecesOf items) b := by
  induction h with
  | built h => exact ⟨covers_built h, stands_built h⟩
  | step h hstep ih => exact hstep.balances hs hfits h.reachable ih.1 ih.2

end Runs

def trailerOf (p : Pipe) (items : List StreamItem) (k : Nat) : Int :=
  (p.ring.word ((markAt p.schema (piecesOf items) (k + 1)).words - 1)).toInt

def trailersFrom (p : Pipe) (items : List StreamItem) (first : Nat) : Nat → Int
  | 0 => 0
  | count + 1 => p.trailersFrom items first count + p.trailerOf items (first + count)

theorem trailersFrom_eq_total {items : List StreamItem} {p : Pipe} {b : Ledger} {first count : Nat}
    (h : ∀ k, first ≤ k → k < first + count → p.trailerOf items k = b.bytes k) :
    p.trailersFrom items first count = b.total first count := by
  induction count with
  | zero => rfl
  | succ count ih =>
    rw [trailersFrom, h (first + count) (by omega) (by omega),
      ih fun k hlow hhigh => h k hlow (by omega), Ledger.total_succ, Int.natCast_add]

/-- A stored trailer counts the bytes that were written for its piece. -/
theorem Covers.trailerOf_eq {s : Schema} {items : List StreamItem} {p : Pipe} {b : Ledger}
    {k told : Nat} (hs : s.LaidOut) (hfits : StreamFits s items) (hordered : p.Ordered)
    (h : p.Covers s (piecesOf items) b told) (hk : k < b.opened) (hread : b.read ≤ k + 1)
    (hcomplete : b.Complete k) : p.trailerOf items k = b.bytes k := by
  obtain ⟨piece, hpiece⟩ := h.exists_piece hk
  have hbytes := h.bytes_le hordered hk hread
  have hcapacity := h.capacity
  have hbears := h.bears k piece hpiece hk hread
  have hword : p.ring.word ((markAt s (piecesOf items) (k + 1)).words - 1) =
      Int32.ofNat (b.bytes k) := by
    rw [markAt_succ hpiece]
    cases piece with
    | marker => exact hbears.trailer hcomplete
    | fragment m index d =>
      obtain ⟨hitem, hmember⟩ := mem_of_piecesOf hpiece
      obtain ⟨f, hf, -⟩ := (hfits m hitem).begins hs hmember
      rw [Piece.extent, hf]
      exact (hbears f hf).trailer hcomplete
  rw [trailerOf, h.schema, hword, toInt_ofNat (by omega)]

/-- In every state of every run that frames a stream the bytes are accounted for: those that the
reader has counted and those of the unread trailers are what is published, and with those written
since they are what the producer has written. Every trailer that is stored counts the bytes of its
piece, at most one capacity. The reader resolves the spans of a piece from where the producer
counted them from when it had opened it, and all positions are in order. -/
theorem bytes_conserved {schema : Schema} {config : Config} {items : List StreamItem} {p : Pipe}
    {b : Ledger} (h : Booked schema config items p b) (hs : schema.Accepted)
    (hfits : StreamFits schema items) :
    ((p.consumer.accounted : Int) + p.trailersFrom items b.read (b.published - b.read) =
        p.ring.head.bytes) ∧
      p.ring.head.bytes + b.total b.published (b.opened - b.published) = p.producer.head.bytes ∧
      (∀ k, b.read ≤ k + 1 → k < b.opened → b.Complete k →
        p.trailerOf items k = b.bytes k ∧ b.bytes k ≤ config.size.byteCapacity) ∧
      (∀ k, b.read = k + 1 → p.consumer.byteBase = b.base k) ∧
      p.isOrdered = true := by
  have hordered := h.reachable.ordered hs
  obtain ⟨hcovers, hstands⟩ := h.balances hs hfits
  have hread := hcovers.read_le
  have hopened := hcovers.published_le
  have hcapacity : p.ring.capacity.bytes = config.size.byteCapacity := by
    rw [h.reachable.capacity_eq hs]
  refine ⟨?_, ?_, fun k hlow hhigh hdone => ⟨?_, ?_⟩, hstands.byteBase, hordered.isOrdered ?_⟩
  · have hsum : p.trailersFrom items b.read (b.published - b.read) =
        b.total b.read (b.published - b.read) :=
      trailersFrom_eq_total fun k hlow hhigh =>
        hcovers.trailerOf_eq hs.laidOut hfits hordered (by omega) (by omega)
          (hcovers.complete (by omega))
    have htotal := b.total_add b.read (b.published - b.read)
    rw [Nat.add_sub_cancel' hread] at htotal
    rw [hsum, hstands.accounted, hcovers.published, ← Int.natCast_add]
    exact congrArg _ htotal
  · have htotal := b.total_add b.published (b.opened - b.published)
    rw [Nat.add_sub_cancel' hopened] at htotal
    rw [hcovers.published, hcovers.head]
    exact htotal
  · exact hcovers.trailerOf_eq hs.laidOut hfits hordered hhigh hlow hdone
  · rw [← hcapacity]
    exact hcovers.bytes_le hordered hhigh hlow
  · rw [hstands.accounted, hcovers.published]
    exact (b.mark_mono schema (piecesOf items) hread).2

/-- Both fragments of a book are published and one is read: the trailer of the other tells the two
bytes of its maker. -/
theorem bytes_conserved_book :
    ∃ p b, Booked Schema.book ⟨⟨4, 3⟩, 1⟩ [.message bookQuote, .endOfStream] p b ∧
      b.read = 1 ∧ b.published = 2 ∧ p.consumer.accounted = 0 ∧
      p.trailerOf [.message bookQuote, .endOfStream] 1 = 2 ∧ p.ring.head.bytes = 2 ∧
      p.isOrdered = true := by
  have haccepted : Schema.book.Accepted :=
    ⟨Schema.compiled_book, by decide, by decide, by decide⟩
  obtain ⟨b, hrun, htallies⟩ := framed_bookPublished.booked haccepted fits_bookQuote
  have hbytes : b.bytes 1 = 2 :=
    (htallies.bytes 1 _ _ _ ⟨3, 6, 4, 1, false⟩ rfl (by decide) (by decide)).trans (by decide)
  have hnext := hrun.step (.reads (eq_ok_of_toOption (by decide +kernel)))
  obtain ⟨-, -, htrailers, -, hordered⟩ := bytes_conserved hnext haccepted fits_bookQuote
  have htrailer := (htrailers 1 (by simp only [htallies.read]; decide)
    (by simp only [htallies.opened]; decide) (.inr (htallies.settled rfl))).1
  rw [show Ledger.bytes _ 1 = 2 from hbytes] at htrailer
  exact ⟨_, _, hnext, congrArg Nat.succ htallies.read, htallies.published, by decide +kernel,
    htrailer, by decide +kernel, hordered⟩

end Pipe

end FragmentPipe
