import FragmentPipe.Proofs.Stream.Marks

set_option autoImplicit false

namespace FragmentPipe

namespace Ring

/-- A fragment lies in a ring from a mark on, its bytes below another. -/
structure HoldsFragment (r : Ring) (s : Schema) (f : Fragment) (d : FragmentData) (start : Mark)
    (base high : Nat) (left : List Nat) (complete : Prop) : Prop where
  id : f.startsMessage = true → r.word (start.words + s.idDistance) = Int32.ofNat f.start
  field : ∀ position e offset shape, s.Field f position e offset →
    e.token.shape? = some shape → position ∉ left →
      r.Stores base (start.words + offset) start.bytes high shape (d.value position)
  trailer : complete →
    r.word (start.words + f.words - 1) = Int32.ofNat (d.bytesAt (s.fieldsOf f))

def Holds (r : Ring) (s : Schema) (start : Mark) (base high : Nat) (left : List Nat)
    (complete : Prop) : Piece → Prop
  | .marker => r.word (start.words + s.idDistance) = -1 ∧
      r.word (start.words + s.idDistance + 1) = 0
  | .fragment _ _ d => ∀ f, s.fragment? d.cursor = some f →
      r.HoldsFragment s f d start base high left complete

section

variable {r r' : Ring} {s : Schema} {f : Fragment} {d : FragmentData} {start : Mark}
  {base high high' : Nat} {left : List Nat} {complete : Prop}

theorem HoldsFragment.of_keeps (hs : s.Measured) {cursor : Int} (hf : s.fragment? cursor = some f)
    (h : r.HoldsFragment s f d start base high left complete)
    (hkeeps : r.Keeps r' start ⟨start.words + f.words, high⟩) (hmore : high ≤ high') :
    r'.HoldsFragment s f d start base high' left complete := by
  have hbase := hs.base_lt_words hf
  refine ⟨fun hstarts => ?_, fun position e offset shape hfield hshape hwritten => ?_,
    fun hcomplete => ?_⟩
  · rw [Schema.base, if_pos hstarts] at hbase
    rw [hkeeps.words _ (Nat.le_add_right _ _) (by simp only; omega)]
    exact h.id hstarts
  · have hlt := hfield.lt_words
    rw [Token.words_of_shape? hshape] at hlt
    refine Stores.mono (.of_keeps (h.field position e offset shape hfield hshape hwritten) ?_)
      (Nat.le_refl _) hmore
    exact hkeeps.mono ⟨Nat.le_add_right _ _, Nat.le_refl _⟩
      ⟨by simp only; omega, Nat.le_refl _⟩
  · rw [hkeeps.words _ (by omega) (by simp only; omega)]
    exact h.trailer hcomplete

/-- One more field is written, and nothing of the fragment beside it changes. -/
theorem HoldsFragment.write (hs : s.Measured) {cursor : Int} (hf : s.fragment? cursor = some f)
    (h : r.HoldsFragment s f d start base high left complete) {position offset : Nat} {e : Entry}
    {shape : Shape} (hfield : s.Field f position e offset) (hshape : e.token.shape? = some shape)
    (hstores : r'.Stores base (start.words + offset) start.bytes high' shape (d.value position))
    (hkeeps : ∀ low stop : Mark, start ≤ low → stop ≤ ⟨start.words + f.words, high⟩ →
      (stop.words ≤ start.words + offset ∨ start.words + offset + shape.words ≤ low.words) →
        r.Keeps r' low stop)
    (hmore : high ≤ high') :
    r'.HoldsFragment s f d start base high' (left.erase position) complete := by
  have hbase := hfield.base_le
  have hlt := hfield.lt_words
  rw [Token.words_of_shape? hshape] at hlt
  refine ⟨fun hstarts => ?_, fun other e' offset' shape' hother hshape' hwritten => ?_,
    fun hcomplete => ?_⟩
  · rw [Schema.base, if_pos hstarts] at hbase
    rw [← h.id hstarts]
    refine (hkeeps start ⟨start.words + s.idDistance + 1, high⟩ (Mark.le_refl _)
      ⟨by simp only; omega, Nat.le_refl _⟩ (.inl (by simp only; omega))).words _
      (Nat.le_add_right _ _) (Nat.lt_succ_self _)
  · by_cases hsame : other = position
    · subst hsame
      obtain ⟨rfl, rfl⟩ := hfield.unique hother
      rw [hshape] at hshape'
      cases hshape'
      exact hstores
    · have hlt' := hother.lt_words
      have hapart : offset' + shape'.words ≤ offset ∨ offset + shape.words ≤ offset' := by
        rw [← Token.words_of_shape? hshape, ← Token.words_of_shape? hshape']
        exact hs.fields_apart hf hfield hother hsame
      rw [Token.words_of_shape? hshape'] at hlt'
      have hbefore := h.field other e' offset' shape' hother hshape' fun hleft =>
        hwritten ((List.mem_erase_of_ne hsame).2 hleft)
      refine Stores.mono
        (.of_keeps hbefore (hkeeps _ _ ⟨Nat.le_add_right _ _, Nat.le_refl _⟩ ?_ ?_))
        (Nat.le_refl _) hmore
      · exact ⟨by simp only; omega, Nat.le_refl _⟩
      · simp only
        omega
  · rw [← h.trailer hcomplete]
    refine (hkeeps ⟨start.words + f.words - 1, start.bytes⟩ ⟨start.words + f.words, high⟩
      ⟨by simp only; omega, Nat.le_refl _⟩ (Mark.le_refl _) (.inr (by simp only; omega))).words _
      (Nat.le_refl _) (by simp only; omega)

theorem HoldsFragment.seal (hs : s.Measured) {cursor : Int} (hf : s.fragment? cursor = some f)
    (h : r.HoldsFragment s f d start base high left complete)
    (hkeeps : r.Keeps r' start ⟨start.words + f.words - 1, high⟩)
    (htrailer : r'.word (start.words + f.words - 1) = Int32.ofNat (d.bytesAt (s.fieldsOf f))) :
    r'.HoldsFragment s f d start base high left True := by
  have hbase := hs.base_lt_words hf
  refine ⟨fun hstarts => ?_, fun position e offset shape hfield hshape hwritten => ?_,
    fun _ => htrailer⟩
  · rw [Schema.base, if_pos hstarts] at hbase
    rw [hkeeps.words _ (Nat.le_add_right _ _) (by simp only; omega)]
    exact h.id hstarts
  · have hlt := hfield.lt_words
    rw [Token.words_of_shape? hshape] at hlt
    apply Stores.of_keeps (h.field position e offset shape hfield hshape hwritten)
    exact hkeeps.mono ⟨Nat.le_add_right _ _, Nat.le_refl _⟩ ⟨by simp only; omega, Nat.le_refl _⟩

theorem HoldsFragment.imp {complete' : Prop}
    (h : r.HoldsFragment s f d start base high left complete) (himp : complete' → complete) :
    r.HoldsFragment s f d start base high left complete' :=
  ⟨h.id, h.field, fun hcomplete => h.trailer (himp hcomplete)⟩

theorem Holds.imp {complete' : Prop} {piece : Piece}
    (h : r.Holds s start base high left complete piece) (himp : complete' → complete) :
    r.Holds s start base high left complete' piece := by
  cases piece with
  | marker => exact h
  | fragment m index d => exact fun f hf => (h f hf).imp himp

theorem Holds.of_keeps (hs : s.Measured) {piece : Piece}
    (h : r.Holds s start base high left complete piece)
    (hkeeps : r.Keeps r' start ⟨(start + piece.extent s).words, high⟩) (hmore : high ≤ high') :
    r'.Holds s start base high' left complete piece := by
  cases piece with
  | marker =>
    simp only [Piece.extent, Mark.words_add, Mark.ofWords] at hkeeps
    obtain ⟨hid, htrailer⟩ := h
    constructor
    · rw [hkeeps.words _ (Nat.le_add_right _ _) (by simp only; omega)]
      exact hid
    · rw [hkeeps.words _ (by omega) (by simp only; omega)]
      exact htrailer
  | fragment m index d =>
    intro f hf
    simp only [Piece.extent, hf, Mark.words_add] at hkeeps
    exact (h f hf).of_keeps hs hf hkeeps hmore

end

end Ring

end FragmentPipe
