import FragmentPipe.Proofs.Stream.Reached

set_option autoImplicit false

namespace FragmentPipe

namespace Pipe

section Framing

variable {s : Schema} {l : List Piece} {items : List StreamItem} {p : Pipe} {g : Progress}
  {k read : Nat} {piece : Piece}

theorem Lays.published (h : p.Lays s l (fun _ => 0) g .none) :
    p.ring.head = markAt s l g.published := by
  have hbelow := h.below
  rw [placeAt_none] at hbelow
  refine Mark.ext (Nat.le_antisymm hbelow ?_) h.bytes
  cases hpublished : g.published with
  | zero =>
    rw [markAt_zero]
    exact Nat.zero_le _
  | succ k =>
    have hlt : k < g.published := by
      rw [hpublished]
      exact Nat.lt_succ_self k
    obtain ⟨piece, hpiece⟩ := h.exists_piece (Nat.lt_of_lt_of_le hlt h.published_le)
    have habove := h.above k piece hpiece hlt
    rw [placeAt_none, ← markAt_succ hpiece] at habove
    exact habove

theorem Lays.head_words (h : p.Lays s l (fun _ => 0) g .none) :
    p.producer.head.words = (markAt s l g.opened).words := by
  rw [h.works.words, rawBefore_none]
  rfl

theorem Lays.guides_none (hs : s.Measured) (hfits : StreamFits s items)
    (h : p.Lays s (piecesOf items) (fun _ => 0) g .none)
    (hpiece : (piecesOf items)[k]? = some piece)
    (hk : k < g.published) (hread : g.read ≤ k + 1) :
    p.ring.GuidesPast s (markAt s (piecesOf items) k).words (piece.extent s).bytes piece := by
  rw [← placeAt_none]
  exact h.guides hs hfits hpiece hk (Nat.sub_le_of_le_add hread)

theorem Reaches.attends (h : p.Reaches s l (fun _ => 0) read .none) : p.Attends s l read where
  tail := by
    cases read with
    | zero => exact (h.unread rfl rfl).trans (markAt_zero s l).symm
    | succ k => exact (h.prepared rfl k rfl).1.trans (placeAt_none s l k)
  next := by
    rw [h.next, rawBefore_none]
    rfl
  bytes := h.bytes
  fresh := h.fresh
  shows := fun k piece hread hpiece => by
    have hshows := h.shows k piece hread hpiece
    rw [revive_of_hasFragment (h.prepared rfl k hread).2] at hshows
    exact hshows

end Framing

/-- A framed run keeps what the ring carries and where the consumer stands in step with the
stream. -/
theorem Framed.tracks {schema : Schema} {config : Config} {items : List StreamItem} {p : Pipe}
    {g : Progress} (h : Framed schema config items p g) (hs : schema.Accepted)
    (hfits : StreamFits schema items) :
    p.Lays schema (piecesOf items) (fun _ => 0) g .none ∧
      p.Attends schema (piecesOf items) g.read := by
  obtain ⟨hlays, hreaches⟩ := h.spaced.tracks hs hfits
  exact ⟨hlays, hreaches.attends⟩

theorem Framed.read_decided {schema : Schema} {config : Config} {items : List StreamItem} {p : Pipe}
    {g : Progress} (h : Framed schema config items p g) (hs : schema.Accepted)
    (hfits : StreamFits schema items) : p.read.1 = .ok (decide (g.read < g.published)) := by
  have hordered := h.reachable.ordered hs
  have hmeasured := h.reachable.measured hs
  obtain ⟨rfl, hfollows⟩ := h.reachable.follows hs.compiled
  obtain ⟨hlays, hreaches⟩ := h.spaced.tracks hs hfits
  rw [hreaches.read_decided hmeasured hfits hordered hfollows hlays (.inl rfl)]
  exact congrArg Except.ok (decide_eq_decide.2 (and_iff_right rfl))

end Pipe

end FragmentPipe
