import FragmentPipe.Proofs.Reader.Batches
import FragmentPipe.Proofs.Stream.Conservation
import FragmentPipe.Proofs.Writer.Room

set_option autoImplicit false

namespace FragmentPipe

namespace Ledger

theorem mark_le_of_bounds {s : Schema} {l : List Piece} {b : Ledger} {words bytes first count : Nat}
    (h : ∀ k piece, k < first + count → l[k]? = some piece →
      (piece.extent s).words ≤ words ∧ b.bytes k ≤ bytes)
    (hl : first + count ≤ l.length) :
    b.mark s l (first + count) ≤ b.mark s l first + ⟨count * words, count * bytes⟩ := by
  induction count with
  | zero => exact Mark.le_add _ _
  | succ count ih =>
    obtain ⟨piece, hpiece⟩ : ∃ piece, l[first + count]? = some piece :=
      ⟨_, List.getElem?_eq_getElem (by omega)⟩
    obtain ⟨hwords, hbytes⟩ := h _ _ (by omega) hpiece
    obtain ⟨ihWords, ihBytes⟩ := ih (fun k piece hk => h k piece (by omega)) (by omega)
    rw [← Nat.add_assoc, b.mark_succ hpiece, Nat.succ_mul, Nat.succ_mul]
    simp only [Mark.le_iff, Mark.words_add, Mark.bytes_add] at ihWords ihBytes ⊢
    omega

end Ledger

namespace Pipe

/-- Everything is released but what lies in one batch, the prepared piece included. -/
structure Lags (s : Schema) (l : List Piece) (batch : Int) (p : Pipe) (b : Ledger) : Prop where
  batchRelease : p.consumer.batchRelease = batch
  countdown : 0 < p.consumer.batchCountdown
  released : ∃ first, first ≤ b.read ∧ p.ring.tail = b.mark s l first ∧
    b.read + p.consumer.batchCountdown ≤ first + 1 + batch

section Steps

variable {s : Schema} {l : List Piece} {batch : Int} {p q : Pipe} {b c : Ledger}

theorem Lags.keeps (h : p.Lags s l batch b) (hconsumer : q.consumer = p.consumer)
    (htail : q.ring.tail = p.ring.tail) (hread : c.read = b.read)
    (hmark : ∀ k, k ≤ b.read → c.mark s l k = b.mark s l k) : q.Lags s l batch c := by
  obtain ⟨first, hle, hreleased, hlag⟩ := h.released
  refine ⟨hconsumer ▸ h.batchRelease, hconsumer ▸ h.countdown, first, hread ▸ hle, ?_, ?_⟩
  · rw [htail, hreleased, hmark first hle]
  · rwa [hread, hconsumer]

theorem Lags.idles (h : p.Lags s l batch b) (hidles : p.Idles q) : q.Lags s l batch b := by
  rcases hidles with ⟨seen, rfl⟩ | ⟨seen, -, rfl⟩
  · exact ⟨h.batchRelease, h.countdown, h.released⟩
  · exact ⟨h.batchRelease, h.countdown, h.released⟩

/-- The last piece of a batch releases everything before it. -/
theorem Lags.reads (hpos : 0 < batch) (h : p.Lags s l batch b) (hbatches : p.Batches q)
    (hstands : q.Stands s l { b with read := b.read + 1 }) :
    q.Lags s l batch { b with read := b.read + 1 } := by
  obtain ⟨first, hle, hreleased, hlag⟩ := h.released
  have hbatch := hbatches.batchRelease.trans h.batchRelease
  rcases hbatches.released with ⟨hmore, hcountdown, -, htail⟩ | ⟨-, hcountdown, -, htail⟩
  · refine ⟨hbatch, by omega, first, Nat.le_succ_of_le hle, htail.trans hreleased, ?_⟩
    simp only [Int.natCast_add]
    omega
  · refine ⟨hbatch, by rw [hcountdown, h.batchRelease]; exact hpos, b.read, Nat.le_succ _,
      htail.trans hstands.tail, ?_⟩
    simp only [Int.natCast_add]
    rw [hcountdown, h.batchRelease]
    omega

theorem Lags.releases (hpos : 0 < batch) (h : p.Lags s l batch b) (hstands : p.Stands s l b) :
    p.releaseNow.Lags s l batch b := by
  rcases p.releaseNow_cases with ⟨-, -, hnothing⟩ | hrelease
  · rw [hnothing]
    exact h
  · rw [hrelease]
    have hcountdown : p.release.consumer.batchCountdown = batch := h.batchRelease
    refine ⟨h.batchRelease, by rw [hcountdown]; exact hpos, b.read - 1, Nat.sub_le _ _,
      hstands.tail, ?_⟩
    rw [hcountdown]
    omega

theorem Books.lags (hs : s.LaidOut) (hfollows : p.consumer.Follows p.schema)
    (hschema : p.schema = s) (hpos : 0 < batch) (hcovers : p.Covers s l b b.published)
    (hstands : p.Stands s l b) (h : p.Lags s l batch b) (hstep : p.Books s l b q c)
    (hlater : q.Stands s l c) : q.Lags s l batch c := by
  have hread := Nat.le_trans hcovers.read_le hcovers.published_le
  subst hschema
  cases hstep with
  | @opens q m index d bytes hnext hopen =>
    have hgoes := p.goesOn_openAt d.cursor bytes
    rw [hopen] at hgoes
    exact h.keeps hgoes.consumer hgoes.tail rfl
      fun k hk => b.mark_opens _ (Nat.le_trans hk hread)
  | @writes q k m index d loc value position hpiece hunpublished hopened hfield hstart hfilling
      hwrite =>
    have hgoes := p.goesOn_write loc value
    rw [hwrite] at hgoes
    refine h.keeps hgoes.consumer hgoes.tail rfl fun j hj => b.mark_posts _ _ _ ?_
    have hle := hcovers.read_le
    omega
  | publishes => exact h.keeps p.goesOn_publish.consumer p.goesOn_publish.tail rfl fun _ _ => rfl
  | marks htells hnext hmarker =>
    have hgoes := p.goesOn_publishMarker
    rw [hmarker] at hgoes
    exact h.keeps hgoes.consumer hgoes.tail rfl
      fun k hk => b.mark_opens q.producer.byteBase (Nat.le_trans hk hread)
  | refusesToMark hmarker =>
    have hgoes := p.goesOn_publishMarker
    rw [hmarker] at hgoes
    exact h.keeps hgoes.consumer hgoes.tail rfl fun _ _ => rfl
  | reads hread =>
    have hattempt := attempt_read hs hfollows
    rw [hread] at hattempt
    exact h.reads hpos hattempt.batches hlater
  | releases => exact h.releases hpos hstands
  | refuses action hne hrefuses => exact h.idles (hrefuses.idles hs hfollows hne)

end Steps

section Runs

variable {schema : Schema} {config : Config} {items : List StreamItem} {p : Pipe} {b : Ledger}

theorem Booked.lags (h : Booked schema config items p b) (hs : schema.Accepted)
    (hfits : StreamFits schema items) : p.Lags schema (piecesOf items) config.batchRelease b := by
  induction h with
  | built h =>
    have hbatch := Config.batchRelease_of_validate (validate_of_build h)
    rw [eq_fresh_of_build h]
    refine ⟨rfl, Int.lt_of_lt_of_le Int.zero_lt_one hbatch, 0, Nat.le_refl _,
      (Ledger.mark_zero _ _ _).symm, ?_⟩
    show (0 : Int) + config.batchRelease ≤ 0 + 1 + config.batchRelease
    omega
  | @step p q b c h hstep ih =>
    have hbatch := Config.batchRelease_of_validate h.reachable.validate
    obtain ⟨hschema, hfollows⟩ := h.reachable.follows hs.compiled
    obtain ⟨hcovers, hstands⟩ := h.balances hs hfits
    exact hstep.lags hs.laidOut hfollows hschema (Int.lt_of_lt_of_le Int.zero_lt_one hbatch) hcovers
      hstands ih ((h.step hstep).balances hs hfits).2

theorem words_of_piece (hs : schema.Measured) (hfits : StreamFits schema items) {k : Nat}
    {piece : Piece} (hpiece : (piecesOf items)[k]? = some piece) :
    0 < (piece.extent schema).words ∧
      ((piece.extent schema).words : Int) ≤ schema.maxFragmentWords := by
  cases piece with
  | marker =>
    have hmarker := hs.marker_le_max
    rw [hs.marker_eq] at hmarker
    exact ⟨Nat.succ_pos _, hmarker⟩
  | fragment m index d =>
    obtain ⟨hitem, hmember⟩ := mem_of_piecesOf hpiece
    obtain ⟨f, hf, -⟩ := (hfits m hitem).begins hs.laidOut hmember
    have hbase := hs.base_lt_words hf
    simp only [Piece.extent, hf]
    exact ⟨by omega, hs.words_le_max hf⟩

theorem Covers.read_of_drained (hs : schema.Measured) (hfits : StreamFits schema items)
    (h : p.Covers schema (piecesOf items) b b.published)
    (hstands : p.Stands schema (piecesOf items) b)
    (hdrained : p.consumer.next = p.producer.head.words) : b.read = b.opened := by
  refine Nat.le_antisymm (Nat.le_trans h.read_le h.published_le) (Nat.not_lt.1 fun hlt => ?_)
  obtain ⟨piece, hpiece⟩ := h.exists_piece hlt
  have hwords := (words_of_piece hs hfits hpiece).1
  have hmono := (b.mark_mono schema (piecesOf items) (show b.read + 1 ≤ b.opened from hlt)).1
  rw [hstands.next, h.head] at hdrained
  rw [b.mark_succ hpiece, Mark.words_add] at hmono
  simp only at hmono
  omega

/-- A drained ring that holds one piece more than a batch has room for one. -/
theorem Booked.room_of_drained (h : Booked schema config items p b) (hs : schema.Accepted)
    (hfits : StreamFits schema items) {most : Nat} (hmost : ∀ k, k < b.opened → b.bytes k ≤ most)
    (hwords : (config.batchRelease + 1) * schema.maxFragmentWords ≤ config.size.wordCapacity)
    (hbytes : (config.batchRelease + 1) * most ≤ config.size.byteCapacity)
    (hdrained : p.consumer.next = p.producer.head.words) {words bytes : Nat}
    (hrequest : (words : Int) ≤ schema.maxFragmentWords) (hle : bytes ≤ most) :
    p.FitsBehind p.ring.tail ⟨words, bytes⟩ := by
  have hmeasured := h.reachable.measured hs
  have hbatch := Config.batchRelease_of_validate h.reachable.validate
  obtain ⟨hcovers, hstands⟩ := h.balances hs hfits
  have hlags := h.lags hs hfits
  obtain ⟨first, hfirst, htail, hlag⟩ := hlags.released
  have hcountdown := hlags.countdown
  have hall := hcovers.read_of_drained hmeasured hfits hstands hdrained
  obtain ⟨batch, hbatchNat⟩ := Int.eq_ofNat_of_zero_le (Int.le_trans (by decide) hbatch)
  obtain ⟨largest, hlargest⟩ :=
    Int.eq_ofNat_of_zero_le (Int.le_trans (Int.natCast_nonneg words) hrequest)
  obtain ⟨count, hcount⟩ := Nat.exists_eq_add_of_le hfirst
  have hbound : p.producer.head ≤ p.ring.tail + ⟨count * largest, count * most⟩ := by
    rw [hcovers.head, htail, ← hall, hcount]
    refine Ledger.mark_le_of_bounds (fun k piece hk hpiece => ⟨?_, hmost k (by omega)⟩) ?_
    · have hpieceWords := (words_of_piece hmeasured hfits hpiece).2
      omega
    · have hlength := hcovers.opened_le
      omega
  have hfew : count ≤ batch := by omega
  rw [hbatchNat, hlargest] at hwords
  rw [hbatchNat] at hbytes
  have hwordsNat : (batch + 1) * largest ≤ config.size.wordCapacity := by exact_mod_cast hwords
  have hbytesNat : (batch + 1) * most ≤ config.size.byteCapacity := by exact_mod_cast hbytes
  have hcountWords := Nat.mul_le_mul_right largest hfew
  have hcountBytes := Nat.mul_le_mul_right most hfew
  rw [Nat.succ_mul] at hwordsNat hbytesNat
  unfold FitsBehind
  rw [h.reachable.capacity_eq hs]
  simp only [Mark.le_iff, Mark.words_add, Mark.bytes_add] at hbound ⊢
  omega

end Runs

end Pipe

end FragmentPipe
