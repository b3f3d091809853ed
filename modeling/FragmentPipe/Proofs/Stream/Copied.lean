import FragmentPipe.Proofs.Stream.Conservation

set_option autoImplicit false

namespace FragmentPipe

namespace Ledger

def Agrees (b c : Ledger) (count : Nat) : Prop :=
  ∀ k, k < count → c.bytes k = b.bytes k ∧ c.base k = b.base k ∧ c.written k = b.written k

/-- The ledger of a pipe that so many pieces were passed on to, of which so many were read. -/
def copied (b : Ledger) (count read : Nat) : Ledger :=
  { b with opened := count, published := count, read, filling := false }

section

variable {s : Schema} {l : List Piece} {b c : Ledger} {count k : Nat}

theorem Agrees.refl (b : Ledger) (count : Nat) : b.Agrees b count := fun _ _ => ⟨rfl, rfl, rfl⟩

theorem Agrees.mono {fewer : Nat} (h : b.Agrees c count) (hle : fewer ≤ count) :
    b.Agrees c fewer :=
  fun k hk => h k (Nat.lt_of_lt_of_le hk hle)

theorem Agrees.mark (h : b.Agrees c count) (hk : k ≤ count) : c.mark s l k = b.mark s l k :=
  mark_congr fun i hi => (h i (Nat.lt_of_lt_of_le hi hk)).1

theorem agrees_opens (b : Ledger) (base : Nat) (hcount : count ≤ b.opened) :
    b.Agrees (b.opens base) count := by
  intro k hk
  have hne : k ≠ b.opened := by omega
  exact ⟨b.bytes_opens base hne, b.base_opens base hne, b.written_opens base hne⟩

end

end Ledger

namespace Pipe

section Steps

variable {schema : Schema} {config : Config} {items : List StreamItem} {p q : Pipe} {b c : Ledger}

theorem Books.agrees {l : List Piece} {told : Nat} (hcovers : p.Covers schema l b told)
    (h : p.Books schema l b q c) : b.Agrees c b.published := by
  cases h with
  | opens | marks => exact b.agrees_opens _ hcovers.published_le
  | writes position hpiece hunpublished hopened hfield hstart hfilling hwrite =>
    intro j hj
    exact ⟨hcovers.bytes_posts hfilling (.inl hj), rfl,
      funext fun _ => b.written_posts_of_ne (.inl (by omega))⟩
  | publishes | refusesToMark | reads | releases | refuses => exact .refl b _

/-- No step touches what is published and not released. -/
theorem Books.keepsPublished (hs : schema.Accepted) (hreachable : Reachable schema config p)
    (hcovers : p.Covers schema (piecesOf items) b b.published)
    (h : p.Books schema (piecesOf items) b q c) : p.KeepsPublished q := by
  have hmeasured := hreachable.measured hs
  have hordered := hreachable.ordered hs
  obtain ⟨rfl, hfollows⟩ := hreachable.follows hs.compiled
  cases h with
  | @opens q m index d bytes hnext hopen =>
    have hkeeps := keepsPublished_openAt hmeasured hordered d.cursor bytes
    rwa [hopen] at hkeeps
  | writes position hpiece hunpublished hopened hfield hstart hfilling hwrite =>
    obtain ⟨f, e, offset, -, -, -, hputs⟩ :=
      hcovers.puts_of_write hmeasured hordered hpiece hunpublished hopened hfield hstart hwrite
    refine hputs.keeps _ _ (Mark.le_refl _) hordered.published (.inl ?_)
    rw [hcovers.published]
    exact Nat.le_trans (b.mark_mono _ _ hunpublished).1 (Nat.le_add_right _ _)
  | publishes => exact keepsPublished_publish hordered
  | marks _ _ hmarker | refusesToMark hmarker =>
    have hkeeps := keepsPublished_publishMarker hs hordered
    rwa [hmarker] at hkeeps
  | reads hread =>
    have hattempt := attempt_read hmeasured.laidOut hfollows
    rw [hread] at hattempt
    cases hattempt with
    | moved _ _ hmoved =>
      obtain ⟨tail, -, hring⟩ := hmoved.ring
      exact .of_eq (by rw [hring]) (by rw [hring])
  | releases =>
    unfold releaseNow release
    split <;> exact .of_eq rfl rfl
  | refuses action hne hrefuses =>
    rcases hrefuses.idles hs.laidOut hfollows hne with ⟨seen, heq⟩ | ⟨seen, -, heq⟩ <;>
      rw [heq] <;> exact keepsPublished_of_eq rfl

end Steps

section Copies

variable {s : Schema} {items : List StreamItem} {p q t : Pipe} {b c : Ledger}
  {count read k : Nat} {piece : Piece}

/-- What the source enters for later pieces does not concern what was passed on. -/
theorem Covers.of_agrees {l : List Piece} (h : q.Covers s l (b.copied count read) count)
    (hagrees : b.Agrees c count) : q.Covers s l (c.copied count read) count := by
  have hmark : ∀ k, k ≤ count →
      (c.copied count read).mark s l k = (b.copied count read).mark s l k :=
    fun k hk => hagrees.mark hk
  have hread : read ≤ count := h.read_le
  have hlodges : q.Lodges s l ((c.copied count read).mark s l)
      ((c.copied count read).account s l count) (read - 1) count := by
    refine { h.toLodges with tail := ?_, waits := ?_, spans := ?_, ends := ?_, accounts := ?_ }
    · rw [hmark _ (by omega)]
      exact h.tail
    · intro k piece hpiece hk
      rw [hmark k (Nat.le_of_lt hk)]
      exact h.ends k piece hpiece hk
    · intro last hlast
      rw [h.settled rfl] at hlast
      cases hlast
    · intro k piece hk hpiece
      rw [hmark _ (by omega)]
      exact h.spans k piece hk hpiece
    · intro k piece hpiece hk hfirst
      obtain ⟨hbytes, hbase, hwritten⟩ := hagrees k hk
      have haccount : (c.copied count read).account s l count k =
          (b.copied count read).account s l count k := by
        unfold Ledger.account
        rw [hmark k (Nat.le_of_lt hk)]
        simp only [Ledger.copied, hbytes, hbase, hwritten]
      rw [haccount]
      exact h.accounts k piece hpiece hk hfirst
  refine ⟨hlodges, h.read_le, Nat.le_refl _, h.published.trans (hmark _ (Nat.le_refl _)).symm,
    h.head.trans (hmark _ (Nat.le_refl _)).symm, h.settled, nofun, fun k piece hpiece hk => ?_⟩
  have hlt : k < count := hk
  rw [hmark _ (by omega)]
  exact (hagrees k hlt).2.1.trans (h.base k piece hpiece hk)

theorem Stands.of_agrees {l : List Piece} (h : q.Stands s l b) (hread : c.read = b.read)
    (hagrees : b.Agrees c b.read) : q.Stands s l c :=
  h.keeps (Unmoved.keepsPrepared ⟨q.consumer.seenHead, .inl rfl, rfl⟩) hread
    (fun k hk => (hagrees k hk).1) fun k hk => (hagrees k hk).2.1

theorem Shows.isNewMessage {base : Nat} (h : p.Shows s base piece) :
    p.consumer.isNewMessage = decide (piece.index = 0) := by
  cases piece with
  | marker => exact h.isNewMessage
  | fragment m index d => exact h.isNewMessage

/-- What one pipe has prepared lies in another at the same place, published. -/
structure Passes (p q t : Pipe) : Prop where
  schema : t.schema = q.schema
  consumer : t.consumer = q.consumer
  capacity : t.ring.capacity = q.ring.capacity
  tail : t.ring.tail = q.ring.tail
  published : t.ring.head = t.producer.head
  head : t.producer.head = p.consumer.tail + p.consumer.extent
  byteBase : t.producer.byteBase =
    if p.consumer.isNewMessage then q.producer.head.bytes else q.producer.byteBase
  pending : t.producer.pending = none
  fragmentsWritten : t.producer.fragmentsWritten = q.producer.fragmentsWritten + 1
  messagesWritten : t.producer.messagesWritten =
    if p.consumer.isNewMessage && !p.consumer.endOfStream then q.producer.messagesWritten + 1
    else q.producer.messagesWritten
  keeps : q.ring.Keeps t.ring q.ring.tail q.producer.head
  copies : p.ring.Keeps t.ring p.consumer.tail (p.consumer.tail + p.consumer.extent)

theorem passes_of_relayFrom (hordered : q.Ordered) (hpending : q.producer.pending = none)
    (htail : q.ring.tail ≤ q.producer.head) (hhead : q.producer.head = p.consumer.tail)
    (hrelay : q.relayFrom p = (.ok true, t)) : Passes p q t := by
  unfold relayFrom at hrelay
  rcases q.accept_cases p.consumer fun ring => ring.copyPrepared p.ring p.consumer with
    ⟨-, hcase⟩ | ⟨-, ⟨seen, hseen, hfits, hcase⟩ | ⟨-, hcase⟩⟩ <;>
    rw [hcase] at hrelay <;> cases hrelay
  have hfree := hordered.fits hseen hfits
  have hextent : p.consumer.extent ≤ q.ring.capacity := by
    obtain ⟨hwords, hbytes⟩ := hfree
    obtain ⟨htailWords, htailBytes⟩ := htail
    simp only [Mark.words_add, Mark.bytes_add] at hwords hbytes
    exact ⟨by omega, by omega⟩
  have happends := appends_append (q.glance seen) p.consumer fun ring =>
    ring.copyPrepared p.ring p.consumer
  have hring := happends.ring
  rw [storeTrailer_of_none (p := q.glance seen) hpending] at hring
  refine ⟨happends.schema, happends.consumer, ?_, ?_, ?_, ?_, happends.byteBase, happends.pending,
    happends.fragmentsWritten, happends.messagesWritten, ?_, ?_⟩
  · rw [hring]
    simp [Ring.capacity, Ring.copyPrepared, glance]
  · rw [hring]
    rfl
  · rw [hring]
    exact happends.head.symm
  · rw [happends.head, ← hhead]
    rfl
  · rw [hring]
    exact .trans (q.ring.keeps_copyPrepared p.ring p.consumer (Mark.le_refl _) hfree)
      (.of_eq rfl rfl)
  · rw [hring]
    refine .trans (q.ring.keeps_of_copyPrepared p.ring p.consumer hextent) (.of_eq ?_ ?_) <;>
      rw [← hhead] <;> rfl

section Source

variable (hstands : p.Stands s (piecesOf items) b) (hread : b.read = k + 1)

include hstands hread in
theorem Stands.tail_eq : p.consumer.tail = b.mark s (piecesOf items) k := by
  rw [hstands.tail, hread, Nat.add_sub_cancel]

include hstands hread in
theorem Stands.extent_eq :
    p.consumer.tail + p.consumer.extent = b.mark s (piecesOf items) (k + 1) := by
  have hle := (b.mark_mono s (piecesOf items) (Nat.le_succ k)).1
  refine Mark.ext ?_ ?_
  · show p.consumer.tail.words + (p.consumer.next - p.consumer.tail.words) = _
    rw [hstands.next, hread, hstands.tail_eq hread, Nat.add_sub_cancel' hle]
  · rw [← hread]
    exact hstands.accounted

end Source

/-- What the consumer of the source has prepared is passed on: the target carries one piece more. -/
theorem Covers.passes (hs : s.Measured) (hfits : StreamFits s items)
    (hcovers : p.Covers s (piecesOf items) b b.published)
    (hstands : p.Stands s (piecesOf items) b) (hread : b.read = k + 1)
    (hpiece : (piecesOf items)[k]? = some piece)
    (h : q.Covers s (piecesOf items) (b.copied k read) k) (hpasses : Passes p q t) :
    t.Covers s (piecesOf items) (b.copied (k + 1) read) (k + 1) := by
  have hlt : k < b.published := by
    have := hcovers.read_le
    omega
  have hopened : k < b.opened := Nat.lt_of_lt_of_le hlt hcovers.published_le
  have hcopies := hpasses.copies
  rw [hstands.extent_eq hread, hstands.tail_eq hread] at hcopies
  have hhead : t.producer.head = b.mark s (piecesOf items) (k + 1) := by
    rw [hpasses.head, hstands.extent_eq hread]
  have hplace : q.producer.head = b.mark s (piecesOf items) k := h.head
  have hbeyond : q.Beyond t := by
    refine ⟨hpasses.schema, hpasses.capacity, hpasses.tail, ?_, hpasses.keeps⟩
    rw [hhead, hplace]
    exact b.mark_mono s (piecesOf items) (Nat.le_succ k)
  have hbase : t.producer.byteBase = (b.mark s (piecesOf items) (k - piece.index)).bytes := by
    obtain ⟨base, hshows⟩ := hstands.awaits.shows k piece hread hpiece
    have hrebased := hpasses.byteBase
    rw [hshows.isNewMessage] at hrebased
    exact h.toLodges.base_next (q := t) hs.laidOut hfits (by rw [h.head]) hpiece
      (by simpa using hrebased)
  have haccount : ∀ j, j < k → (b.copied (k + 1) read).account s (piecesOf items) (k + 1) j =
      (b.copied k read).account s (piecesOf items) k j := by
    intro j hj
    have htold : (j < k + 1) = (j < k) := propext ⟨fun _ => hj, Nat.lt_succ_of_lt⟩
    unfold Ledger.account
    rw [htold]
    rfl
  -- The piece that is passed on lies in the target as it lies in the source, at the same mark.
  have hnew : ∀ complete : Prop, (b.copied (k + 1) read).account s (piecesOf items) (k + 1) k
      t.producer.head.bytes complete t.ring piece := by
    intro complete
    have hbears := hcovers.bears k piece hpiece hopened (Nat.le_of_eq hread)
    refine (hbears.imp (Nat.le_refl _) (fun _ => hlt)
      fun _ => ⟨hcovers.complete hlt, rfl⟩).of_words hs fun i hi => ?_
    refine hcopies.words _ (Nat.le_add_right _ _) ?_
    rw [b.mark_succ hpiece]
    exact Nat.add_lt_add_left hi _
  have hlodges : t.Lodges s (piecesOf items) ((b.copied (k + 1) read).mark s (piecesOf items))
      ((b.copied (k + 1) read).account s (piecesOf items) (k + 1)) (read - 1) (k + 1) := by
    refine h.toLodges.next ((b.copied k read).row s _) ((b.copied k read).local_account hs _ k)
      (h.settled rfl) hbeyond hpiece (fun _ _ => rfl) haccount ?_ (fun last hlast => ?_) hbase
      fun complete _ => hnew complete
    · rw [hhead, b.mark_succ hpiece]
      exact Nat.le_refl _
    · rw [hpasses.pending] at hlast
      cases hlast
  refine ⟨hlodges, Nat.le_succ_of_le h.read_le, Nat.le_refl _, hpasses.published.trans hhead, hhead,
    fun _ => hpasses.pending, nofun,
    fun j other hj hlast => hcovers.base j other hj (Nat.lt_of_lt_of_le hlast hopened)⟩

end Copies

end Pipe

end FragmentPipe
