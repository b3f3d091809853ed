import FragmentPipe.Proofs.Stream.Guides
import FragmentPipe.Proofs.Stream.Stored

set_option autoImplicit false

namespace FragmentPipe

namespace Ring

variable {r : Ring} {s : Schema} {f : Fragment} {d : FragmentData} {start : Mark} {base high : Nat}
  {complete : Prop}

theorem HoldsFragment.length (hs : s.Measured) (hf : s.fragment? d.cursor = some f)
    (hfits : d.Fits s) (h : r.HoldsFragment s f d start base high [] complete) {last : Nat}
    {final : Entry} (hlast : s.lastOf? f = some (last, final))
    (hlength : final.token.isLength = true) :
    (r.word (start.words + final.wordDistance)).toInt = (d.value last).count ∧
      0 ≤ (d.value last).count := by
  obtain ⟨last', final', -, hspan, hstop, hfinal, -⟩ := hs.words_eq hf
  have hsame : s.lastOf? f = some (last', final') := by
    unfold Schema.lastOf?
    simp only [hstop, Nat.add_sub_cancel, hfinal, Option.map_some]
  rw [hlast] at hsame
  cases hsame
  obtain ⟨offset, hfield⟩ := hs.exists_field hf hspan.le (by omega) hfinal
  have hstored := (h.field last final offset .word hfield (Token.shape?_of_isLength hlength)
    List.not_mem_nil).value
  refine ⟨?_, hfits.length f last final hf hlast hlength⟩
  rw [← hstored, hfield.wordDistance]
  rfl

theorem HoldsFragment.lengthOf (hs : s.Measured) (hf : s.fragment? d.cursor = some f)
    (hfits : d.Fits s) (h : r.HoldsFragment s f d start base high [] complete) :
    r.lengthOf s start.words f = d.length s := by
  unfold Ring.lengthOf FragmentData.length
  rw [hf, Option.bind_some]
  cases hlast : s.lastOf? f with
  | none => rfl
  | some found =>
    simp only
    split
    · rename_i hlength
      obtain ⟨hword, hnonneg⟩ := h.length hs hf hfits hlast hlength
      rw [hword, Int.toNat_of_nonneg hnonneg]
    · rfl

/-- A complete piece has the words that lead a reader past it. -/
theorem Holds.guides (hs : s.Measured) {piece : Piece}
    (hfits : ∀ m index d, piece = .fragment m index d → d.Fits s)
    (h : r.Holds s start base high [] True piece) :
    r.GuidesPast s start.words (piece.extent s).bytes piece := by
  cases piece with
  | marker => exact ⟨h.1, h.2⟩
  | fragment m index d =>
    intro f hf
    have hheld := h f hf
    refine ⟨hheld.id, hheld.lengthOf hs hf (hfits m index d rfl), ?_⟩
    rw [Piece.extent, hf]
    exact hheld.trailer trivial

end Ring

end FragmentPipe
