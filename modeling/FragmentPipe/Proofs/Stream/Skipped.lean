import FragmentPipe.Proofs.Stream.Delivery

set_option autoImplicit false

namespace FragmentPipe

namespace Pipe

section Consuming

variable {s : Schema} {l : List Piece} {items : List StreamItem} {gaps : Nat → Nat} {p : Pipe}
  {g : Progress} {w : Raw} {read : Nat}

theorem Reaches.skips (hordered : p.Ordered) (hlays : p.Lays s l gaps g w)
    (h : p.Reaches s l gaps g.read w) {words : Nat} (hgap : w.skipped + words ≤ gaps g.read)
    (hk : g.read < g.published) : (p.skip words).1 = .ok () := by
  obtain ⟨piece, hpiece⟩ := hlays.exists_piece (Nat.lt_of_lt_of_le hk hlays.published_le)
  have habove := hlays.above g.read piece hpiece hk
  have hnext := h.next
  have hseenHead := hordered.seenHead
  have hvisible : p.consumer.next + words ≤ p.ring.head.words := by
    rw [Mark.words_add, words_placeAt, rawBefore] at habove
    omega
  unfold Pipe.skip
  obtain ⟨seen, -, ⟨-, hcase⟩ | ⟨rfl, hlt, -⟩⟩ := p.isVisible_cases (p.consumer.next + words)
  · simp only [hcase, ↓reduceIte]
  · omega

/-- The bytes of a piece are taken into the tail once it is left behind. -/
theorem Reaches.tail_bytes (h : p.Reaches s l gaps read w) :
    p.consumer.tail.bytes = (markAt s l (w.first read)).bytes := by
  unfold Raw.first
  cases hpassing : w.passing with
  | true =>
    rw [if_pos rfl, ← h.bytes, (h.passed hpassing).2.1]
    rfl
  | false =>
    rw [if_neg Bool.false_ne_true]
    cases read with
    | zero => rw [h.unread hpassing rfl, markAt_zero]
    | succ k =>
      rw [(h.prepared hpassing k rfl).1]
      rfl

end Consuming

/-- Raw words between the pieces of a stream do not disturb its framing. Behind them a read succeeds
exactly if the next piece is published, and where nothing is published no read fails. What was read
last is the piece of that number as it was written. Its bytes are taken into the consumer's tail
once, when the first skip behind it leaves it, and from then on until the next read there is no
fragment to copy. -/
theorem spaced_delivered {schema : Schema} {config : Config} {items : List StreamItem}
    {gaps : Nat → Nat} {p : Pipe} {g : Progress} {w : Raw}
    (h : Spaced schema config items gaps p g w) (hs : schema.Accepted)
    (hfits : StreamFits schema items) :
    ((w.skipped = gaps g.read ∨ p.ring.head.words ≤ p.consumer.next) →
        p.read.1 = .ok (decide (w.skipped = gaps g.read ∧ g.read < g.published))) ∧
      (∀ words, w.skipped + words ≤ gaps g.read → g.read < g.published →
        (p.skip words).1 = .ok ()) ∧
      (w.passing = false → ∀ k, g.read = k + 1 →
        ∃ piece, (piecesOf items)[k]? = some piece ∧ p.Delivers piece) ∧
      p.consumer.tail.bytes = (markAt schema (piecesOf items) (w.first g.read)).bytes ∧
      p.consumer.tail.bytes + p.consumer.fragmentBytes =
        (markAt schema (piecesOf items) g.read).bytes ∧
      (w.passing = true → p.relayWithin.1 = .error (.error .nothingPrepared) ∧
        ∀ target : Pipe, (target.relayFrom p).1 = .error (.error .nothingPrepared)) := by
  have hordered := h.reachable.ordered hs
  have hmeasured := h.reachable.measured hs
  have hpresents := h.reachable.presents hs.compiled
  obtain ⟨rfl, hfollows⟩ := h.reachable.follows hs.compiled
  obtain ⟨hlays, hreaches⟩ := h.tracks hs hfits
  refine ⟨hreaches.read_decided hmeasured hfits hordered hfollows hlays,
    fun words hgap hk => hreaches.skips hordered hlays hgap hk,
    fun hkept k hread => hreaches.delivers hmeasured hfits hpresents hlays hkept hread,
    hreaches.tail_bytes, hreaches.bytes, fun hpassing => ?_⟩
  have hnone := (hreaches.passed hpassing).2.2
  have haccept : ∀ (target : Pipe) (transfer : Ring → Mark → Ring),
      (target.accept p.consumer transfer).1 = .error (.error .nothingPrepared) := by
    intro target transfer
    rw [accept, hnone]
    rfl
  exact ⟨haccept p _, fun target => haccept target _⟩

/-- Two raw words stand inside a message of a book. Once they are skipped there is nothing to copy,
and the read behind them finds the level as it was put in. -/
theorem spaced_delivered_book :
    ∃ p q, Spaced Schema.book ⟨⟨4, 3⟩, 1⟩ [.message bookQuote, .endOfStream]
        (fun k => if k = 1 then 2 else 0) p ⟨2, [], 2, 1⟩ ⟨0, 0, 2, true⟩ ∧
      p.relayWithin.1 = .error (.error .nothingPrepared) ∧ p.read = (.ok true, q) ∧
      q.DeliversFragment bookQuote 1
        ⟨3, fun position => if position = 4 then .decimal 2 5 else .bytes [72, 105]⟩ := by
  have haccepted : Schema.book.Accepted :=
    ⟨Schema.compiled_book, by decide, by decide, by decide⟩
  have hbuilt : Spaced Schema.book ⟨⟨4, 3⟩, 1⟩ [.message bookQuote, .endOfStream]
      (fun k => if k = 1 then 2 else 0) (fresh Schema.book ⟨⟨4, 3⟩, 1⟩) ⟨0, [], 0, 0⟩ .none :=
    .built (build_eq_fresh (by decide +kernel))
  have hfirst := ((hbuilt.opens 0 rfl rfl rfl (f := ⟨0, 4, 3, 0, true⟩) (by decide)
    (eq_ok_of_toOption (by decide +kernel))).writes 1 rfl rfl (by decide)
    (show Schema.book.locator? 1 = some ⟨0, 1⟩ by decide)
    (eq_ok_of_toOption (by decide +kernel))).writes 2 rfl rfl (by decide)
    (show Schema.book.locator? 2 = some ⟨0, 2⟩ by decide) (eq_ok_of_toOption (by decide +kernel))
  have hraw := (((hfirst.findsRoom 2 (Prod.ext (by decide +kernel) rfl)).stores 0 (-1)
    (by decide)).stores 1 7 (by decide)).claims 2 rfl (by decide)
    (eq_ok_of_toOption (by decide +kernel))
  have hsecond := (((hraw.opens 2 rfl rfl rfl (f := ⟨3, 6, 4, 1, false⟩) (by decide)
    (eq_ok_of_toOption (by decide +kernel))).writes 5 rfl rfl (by decide)
    (show Schema.book.locator? 5 = some ⟨1, 3⟩ by decide)
    (eq_ok_of_toOption (by decide +kernel))).writes 4 rfl rfl (by decide)
    (show Schema.book.locator? 4 = some ⟨1, 0⟩ by decide)
    (eq_ok_of_toOption (by decide +kernel))).publishes rfl
  have hskipped := ((hsecond.reads rfl (eq_ok_of_toOption (by decide +kernel))).skips 1 (by decide)
    (eq_ok_of_toOption (by decide +kernel))).skips 1 (by decide)
    (eq_ok_of_toOption (by decide +kernel))
  obtain ⟨hdecided, -, -, -, -, hleft⟩ := spaced_delivered hskipped haccepted fits_bookQuote
  have hread := eq_ok_of_toOption (congrArg Except.toOption (hdecided (.inl rfl)))
  obtain ⟨-, -, hdelivers, -⟩ :=
    spaced_delivered (hskipped.reads rfl hread) haccepted fits_bookQuote
  obtain ⟨piece, hpiece, hdelivered⟩ := hdelivers rfl 1 rfl
  cases hpiece
  exact ⟨_, _, hskipped, (hleft rfl).1, hread, hdelivered⟩

end Pipe

end FragmentPipe
