import FragmentPipe.Config
import FragmentPipe.Proofs.Script.Unfolding

set_option autoImplicit false

/-!
# Where the fields of a fragment lie

The words of a fragment are the preamble and the id if it begins a message, its fields in the order
of the script, none reaching into the next, and the trailer behind all of them. Their number fits a
signed word as soon as some configuration suits the schema.
-/
namespace FragmentPipe

theorem toInt_maxValue : Int32.maxValue.toInt = 0x7fffffff := by decide

namespace Config

variable {config : Config} {s : Schema}

theorem size_of_validate (h : config.validate s = .ok ()) :
    config.size.validate = .ok () ∧ largestFor s ≤ config.size.wordCapacity := by
  unfold validate at h
  cases hsize : config.size.validate with
  | error fault =>
    rw [hsize] at h
    cases h
  | ok =>
    rw [hsize] at h
    change (if config.batchRelease < 1 then _ else _) = _ at h
    split at h
    · cases h
    · split at h
      · cases h
      · rename_i hlargest
        exact ⟨rfl, Nat.le_of_not_lt hlargest⟩

theorem batchRelease_of_validate (h : config.validate s = .ok ()) : 1 ≤ config.batchRelease := by
  unfold validate at h
  rw [(size_of_validate h).1] at h
  change (if config.batchRelease < 1 then _ else _) = _ at h
  split at h
  · cases h
  · rename_i hbatch
    exact Int.not_lt.1 hbatch

theorem capacity_le (h : config.validate s = .ok ()) :
    config.size.wordCapacity ≤ 0x40000000 ∧ config.size.byteCapacity ≤ 0x40000000 := by
  have hsize := (size_of_validate h).1
  unfold RingSize.validate RingSize.bitsAllowed at hsize
  split at hsize
  · cases hsize
  · split at hsize
    · cases hsize
    · rename_i hwords hbytes
      simp only [Bool.not_eq_true, Bool.not_eq_false', Bool.and_eq_true,
        decide_eq_true_eq] at hwords hbytes
      simp only [RingSize.wordCapacity, RingSize.byteCapacity, Nat.one_shiftLeft]
      have hmost : ∀ {bits : Nat}, bits ≤ maxChannelBits → 2 ^ bits ≤ 0x40000000 :=
        fun hbits => Nat.pow_le_pow_right (by decide) hbits
      exact ⟨hmost hwords.2, hmost hbytes.2⟩

end Config

namespace Schema

/-- A compiled schema with a proper preamble. Its positions and its preamble are signed words. -/
structure Accepted (s : Schema) : Prop where
  compiled : s.Compiled
  templateOffset_nonneg : 0 ≤ s.templateOffset
  templateOffset_le : s.templateOffset ≤ Int32.maxValue.toInt
  size_le : s.size ≤ Int32.maxValue.toInt

theorem Accepted.laidOut {s : Schema} (h : s.Accepted) : s.LaidOut := h.compiled.laidOut

structure Measured (s : Schema) : Prop extends Accepted s where
  fragmentWords_le : ∀ e ∈ s.entries, e.fragmentWords ≤ Int32.maxValue.toInt

/-- Words in front of the fields of a fragment: those of the preamble and the id of a message. -/
def base (s : Schema) (f : Fragment) : Nat := if f.startsMessage then s.idDistance + 1 else 0

section Offsets

variable {s : Schema} {start last p q : Nat} {e : Entry} {draft : FragmentDraft}

theorem Span.heldAt_succ (hspan : s.Span start last) (hle : start ≤ p) (hlt : p < last)
    (he : s.entries[p]? = some e) (hheld : s.heldAt p = some draft) :
    s.heldAt (p + 1) = some { draft with words := draft.words + e.token.words } := by
  obtain ⟨next, hnext, hstart⟩ := hspan.held (p + 1) (by omega) (by omega)
  have hp := hspan.lt_size
  cases hd : (s.context (p + 1)).draft with
  | some later =>
    obtain ⟨held, hat, rfl, -⟩ := draft_succ he hd
    rw [hheld] at hat
    cases hat
    exact heldAt_of_draft (by omega) hd
  | none =>
    obtain ⟨e', he'⟩ : ∃ e', s.entries[p + 1]? = some e' := exists_entry (by omega)
    rw [heldAt_eq he', Context.holder_of_none _ _ _ _ hd] at hnext
    split at hnext <;> cases hnext
    simp only at hstart
    omega

/-- Later tokens of a fragment lie behind the words of the earlier ones. -/
theorem Span.words_le (hspan : s.Span start last) (hle : start ≤ p) (hpq : p < q) (hq : q ≤ last)
    (he : s.entries[p]? = some e) (hheld : s.heldAt p = some draft) {later : FragmentDraft}
    (hlater : s.heldAt q = some later) : draft.words + e.token.words ≤ later.words := by
  obtain ⟨gap, rfl⟩ : ∃ gap, q = p + 1 + gap := ⟨q - p - 1, by omega⟩
  have hsize := hspan.lt_size
  induction gap generalizing later with
  | zero =>
    rw [Nat.add_zero, hspan.heldAt_succ hle (by omega) he hheld] at hlater
    cases hlater
    exact Int.le_refl _
  | succ gap ih =>
    obtain ⟨between, hbetween, -⟩ := hspan.held (p + 1 + gap) (by omega) (by omega)
    obtain ⟨e', he'⟩ : ∃ e', s.entries[p + 1 + gap]? = some e' :=
      exists_entry (by omega)
    have hbefore := ih (by omega) (by omega) hbetween
    have hnext := hspan.heldAt_succ (by omega) (by omega) he' hbetween
    rw [show p + 1 + (gap + 1) = p + 1 + gap + 1 by omega, hnext] at hlater
    cases hlater
    simp only
    omega

end Offsets

section Fields

variable {s : Schema} (h : s.Accepted)

include h

theorem Accepted.idDistance_eq : (s.idDistance : Int) = s.templateOffset := by
  have hle := h.templateOffset_le
  rw [toInt_maxValue] at hle
  exact distance_of_nonneg h.templateOffset_nonneg (by omega)

theorem Accepted.marker_eq : distance s.markerWords = s.idDistance + 2 := by
  have hle := h.templateOffset_le
  rw [toInt_maxValue] at hle
  have hnonneg := h.templateOffset_nonneg
  have hid := h.idDistance_eq
  have hmarker : (distance s.markerWords : Int) = s.markerWords :=
    distance_of_nonneg (by unfold markerWords; omega) (by unfold markerWords; omega)
  rw [show s.markerWords = s.templateOffset + 2 from rfl] at hmarker ⊢
  omega

end Fields

structure Field (s : Schema) (f : Fragment) (position : Nat) (e : Entry) (offset : Nat) : Prop where
  entry : s.entries[position]? = some e
  start_le : f.start ≤ position
  lt_stop : position < f.start + f.tokens
  held : ∃ draft, s.heldAt position = some draft ∧ draft.words = offset
  locator : e.locator? = some ⟨f.depth, offset⟩
  wordDistance : e.wordDistance = offset
  base_le : s.base f ≤ offset
  lt_words : offset + e.token.words < f.words

theorem Field.unique {s : Schema} {f : Fragment} {position : Nat} {e e' : Entry}
    {offset offset' : Nat} (h : s.Field f position e offset) (h' : s.Field f position e' offset') :
    e' = e ∧ offset' = offset := by
  have hentry := h'.entry
  have hlocator := h'.locator
  rw [h.entry] at hentry
  cases hentry
  rw [h.locator] at hlocator
  cases hlocator
  exact ⟨rfl, rfl⟩

section Fragments

variable {s : Schema} (h : s.Accepted) {position : Int} {f : Fragment}
  (hf : s.fragment? position = some f)

include h hf

theorem Accepted.heldAt_start :
    s.heldAt f.start = some ⟨f.start, s.base f, f.depth⟩ := by
  obtain ⟨-, e, extent, he, hx, -⟩ := fragment?_eq_some hf
  have hsome : e.extent.isSome = true := by rw [hx]; rfl
  obtain ⟨hnone, hopen⟩ := (h.laidOut.extent_isSome f.start e he).1 hsome
  rw [Schema.heldAt_start h.laidOut he hsome, depth_of_fragment? h.laidOut hf]
  have hstarts := startsMessage_of_fragment? hf
  rw [isMessageStart_eq h.laidOut he, hnone, hopen] at hstarts
  have hid := h.idDistance_eq
  unfold base
  rw [hstarts]
  cases (s.context f.start).groups with
  | nil => simp [hid]
  | cons kind outer => simp

theorem Accepted.base_le_words {last p : Nat} {draft : FragmentDraft} (hspan : s.Span f.start last)
    (hle : f.start ≤ p) (hp : p ≤ last) (hheld : s.heldAt p = some draft) :
    (s.base f : Int) ≤ draft.words := by
  have hstart := h.heldAt_start hf
  by_cases hfirst : p = f.start
  · rw [hfirst, hstart] at hheld
    cases hheld
    exact Int.le_refl _
  · obtain ⟨-, e, -, he, -⟩ := fragment?_eq_some hf
    have hwords := hspan.words_le (Nat.le_refl _) (by omega) hp he hstart hheld
    simp only at hwords
    omega

theorem Accepted.words_le {last p : Nat} {draft : FragmentDraft} (hspan : s.Span f.start last)
    (hle : f.start ≤ p) (hp : p ≤ last) (hheld : s.heldAt p = some draft) :
    draft.words ≤ s.base f + 3 * (p - f.start : Nat) := by
  obtain ⟨gap, rfl⟩ : ∃ gap, p = f.start + gap := ⟨p - f.start, by omega⟩
  have hsize := hspan.lt_size
  induction gap generalizing draft with
  | zero =>
    rw [Nat.add_zero, h.heldAt_start hf] at hheld
    cases hheld
    simp
  | succ gap ih =>
    obtain ⟨before, hbefore, -⟩ := hspan.held (f.start + gap) (by omega) (by omega)
    obtain ⟨e, he⟩ : ∃ e, s.entries[f.start + gap]? = some e := exists_entry (by omega)
    have hwords := ih (by omega) (by omega) hbefore
    have hnext := hspan.heldAt_succ (by omega) (by omega) he hbefore
    have hthree := e.token.words_le_three
    rw [← Nat.add_assoc, hnext] at hheld
    cases hheld
    simp only
    omega

end Fragments

section Sizes

variable {s : Schema} {p : Nat} {e : Entry}

theorem fragment?_of_extent {extent : Extent} (he : s.entries[p]? = some e)
    (hx : e.extent = some extent) :
    s.fragment? p = some ⟨p, distance extent.words, extent.tokens, e.depth?.getD 0,
      e.startsMessage⟩ := by
  rw [fragment?_ofNat he, hx]
  rfl

/-- A fragment of a script that a signed word measures is far from any unsigned limit. -/
theorem Accepted.fragmentWords_lt (h : s.Accepted) (he : s.entries[p]? = some e) :
    0 ≤ e.fragmentWords ∧ e.fragmentWords < 0x10000000000000000 := by
  unfold Entry.fragmentWords
  cases hx : e.extent with
  | none => simp
  | some extent =>
    have hf := fragment?_of_extent he hx
    obtain ⟨last, hspan, -, final, draft, hfinal, hheld, hextent⟩ := exists_span h.laidOut he hx
    have hlow := h.base_le_words hf hspan hspan.le (Nat.le_refl _) hheld
    have hhigh := h.words_le hf hspan hspan.le (Nat.le_refl _) hheld
    have hthree := final.token.words_le_three
    have hsize := h.size_le
    rw [toInt_maxValue] at hsize
    have hlast := hspan.lt_size
    have hbase : (s.base ⟨p, distance extent.words, extent.tokens, e.depth?.getD 0,
        e.startsMessage⟩ : Int) ≤ 0x80000000 := by
      have hid := h.idDistance_eq
      have hoffset := h.templateOffset_le
      rw [toInt_maxValue] at hoffset
      unfold base
      split <;> omega
    simp only [Option.map_some, Option.getD_some] at hhigh ⊢
    omega

theorem le_foldl_fragmentWords (entries : List Entry) (start : Int) :
    start ≤ entries.foldl (fun largest e => max largest e.fragmentWords) start ∧
      ∀ e ∈ entries, e.fragmentWords ≤
        entries.foldl (fun largest e => max largest e.fragmentWords) start := by
  induction entries generalizing start with
  | nil => exact ⟨Int.le_refl _, fun e he => (nomatch he)⟩
  | cons first rest ih =>
    obtain ⟨hstart, hrest⟩ := ih (max start first.fragmentWords)
    rw [List.foldl_cons]
    refine ⟨by omega, fun e he => ?_⟩
    rcases List.mem_cons.1 he with rfl | he
    · omega
    · exact hrest e he

theorem foldl_fragmentWords_lt {bound : Int} (entries : List Entry) (start : Int)
    (hstart : start < bound) (h : ∀ e ∈ entries, e.fragmentWords < bound) :
    entries.foldl (fun largest e => max largest e.fragmentWords) start < bound := by
  induction entries generalizing start with
  | nil => exact hstart
  | cons first rest ih =>
    have hfirst := h first List.mem_cons_self
    rw [List.foldl_cons]
    exact ih _ (Int.max_lt.2 ⟨hstart, hfirst⟩) fun e he => h e (List.mem_cons_of_mem _ he)

theorem role_of_isSimple (hsimple : s.isSimple = true) :
    ∀ token ∈ s.tokens, token.role = .plain := by
  intro token htoken
  obtain ⟨e, he, rfl⟩ := List.mem_map.1 htoken
  apply Token.role_of_not_structural
  unfold isSimple at hsimple
  rw [Array.all_eq_true_iff_forall_mem] at hsimple
  simpa using hsimple e (by simpa using he)

theorem extent_of_isSimple (hs : s.LaidOut) (hsimple : s.isSimple = true)
    (he : s.entries[p]? = some e) (hpos : 0 < p) : e.extent = none := by
  have hroles := role_of_isSimple hsimple
  have haround := around_of_flat hroles hpos (Nat.le_of_lt (lt_size_of_getElem? he))
  have hdraft : (s.context p).draft.map FragmentDraft.start = some 0 :=
    congrArg Surroundings.draft haround
  cases hx : e.extent with
  | none => rfl
  | some extent =>
    obtain ⟨hnone, -⟩ := (hs.extent_isSome p e he).1 (by rw [hx]; rfl)
    simp [hnone] at hdraft

theorem fragmentWords_le_max (hs : s.LaidOut) (he : s.entries[p]? = some e)
    (hx : e.extent.isSome = true) : e.fragmentWords ≤ s.maxFragmentWords := by
  unfold maxFragmentWords
  by_cases hsimple : s.isSimple = true
  · rw [if_pos hsimple]
    by_cases hpos : 0 < p
    · rw [extent_of_isSimple hs hsimple he hpos] at hx
      cases hx
    · obtain rfl : p = 0 := by omega
      rw [he]
      exact Int.le_refl _
  · rw [if_neg hsimple, ← Array.foldl_toList]
    exact (le_foldl_fragmentWords _ 0).2 e (List.mem_of_getElem? (by simpa using he))

theorem Accepted.maxFragmentWords_lt (h : s.Accepted) :
    s.maxFragmentWords < 0x10000000000000000 := by
  unfold maxFragmentWords
  split
  · cases he : s.entries[0]? with
    | none => simp
    | some e =>
      have := (h.fragmentWords_lt he).2
      simpa using this
  · rw [← Array.foldl_toList]
    apply foldl_fragmentWords_lt _ _ (by omega)
    intro e he
    obtain ⟨p, hp⟩ := List.mem_iff_getElem?.1 he
    exact (h.fragmentWords_lt (p := p) (by simpa using hp)).2

theorem Accepted.words_of_fragment? (h : s.Accepted) {position : Int} {f : Fragment}
    (hf : s.fragment? position = some f) :
    ∃ e, s.entries[f.start]? = some e ∧ e.extent.isSome = true ∧
      (f.words : Int) = e.fragmentWords := by
  obtain ⟨-, e, extent, he, hx, hwords⟩ := fragment?_eq_some hf
  obtain ⟨hnonneg, hlt⟩ := h.fragmentWords_lt he
  have hcounted : e.fragmentWords = extent.words := by
    rw [Entry.fragmentWords, hx]
    rfl
  refine ⟨e, he, by rw [hx]; rfl, ?_⟩
  rw [hcounted] at hnonneg hlt ⊢
  rw [hwords]
  exact distance_of_nonneg hnonneg hlt

theorem Accepted.words_le_max (h : s.Accepted) {position : Int} {f : Fragment}
    (hf : s.fragment? position = some f) : (f.words : Int) ≤ s.maxFragmentWords := by
  obtain ⟨e, he, hx, hwords⟩ := h.words_of_fragment? hf
  rw [hwords]
  exact fragmentWords_le_max h.laidOut he hx

theorem Accepted.words_eq_max (h : s.Accepted) (hsimple : s.isSimple = true) {f : Fragment}
    (hf : s.fragment? 0 = some f) : (f.words : Int) = s.maxFragmentWords := by
  obtain ⟨e, he, -, hwords⟩ := h.words_of_fragment? hf
  obtain ⟨hstart, -⟩ := fragment?_eq_some hf
  rw [← Int.ofNat.inj hstart] at he
  rw [hwords, maxFragmentWords, if_pos hsimple, he]
  rfl

/-- A configuration that suits an accepted schema leaves room for each of its fragments. -/
theorem Accepted.fits (h : s.Accepted) {config : Config} (hconfig : config.validate s = .ok ()) :
    s.maxFragmentWords ≤ config.size.wordCapacity := by
  have hlt := h.maxFragmentWords_lt
  have hoffset := h.templateOffset_le
  rw [toInt_maxValue] at hoffset
  have hnonneg := h.templateOffset_nonneg
  have hmax : (distance (max s.maxFragmentWords s.markerWords) : Int) =
      max s.maxFragmentWords s.markerWords := by
    refine distance_of_nonneg ?_ ?_ <;> unfold markerWords <;> omega
  have hlargest := (Config.size_of_validate hconfig).2
  unfold Config.largestFor at hlargest
  omega

theorem Accepted.measured (h : s.Accepted) {config : Config}
    (hconfig : config.validate s = .ok ()) : s.Measured := by
  refine ⟨h, fun e he => ?_⟩
  have hfits := h.fits hconfig
  have hcapacity := (Config.capacity_le hconfig).1
  obtain ⟨p, hp⟩ := List.mem_iff_getElem?.1 (Array.mem_toList_iff.2 he)
  have he' : s.entries[p]? = some e := by simpa using hp
  cases hx : e.extent with
  | none =>
    unfold Entry.fragmentWords
    rw [hx]
    decide
  | some extent =>
    have := fragmentWords_le_max h.laidOut he' (by rw [hx]; rfl)
    rw [toInt_maxValue]
    omega

end Sizes

section Measured

variable {s : Schema} (h : s.Measured) {position : Int} {f : Fragment}
  (hf : s.fragment? position = some f)

include h hf

/-- The trailer of a fragment lies behind the words of its last token. -/
theorem Measured.words_eq :
    ∃ last final draft, s.Span f.start last ∧ f.start + f.tokens = last + 1 ∧
      s.entries[last]? = some final ∧ s.heldAt last = some draft ∧
      draft.words + final.token.words + 1 = f.words ∧ (f.words : Int) ≤ Int32.maxValue.toInt := by
  obtain ⟨-, e, extent, he, hx, hwords⟩ := fragment?_eq_some hf
  obtain ⟨last, hspan, htokens, final, draft, hfinal, hheld, htrailer⟩ :=
    exists_span h.laidOut he hx
  have hle : extent.words ≤ Int32.maxValue.toInt := by
    have := h.fragmentWords_le e (Array.mem_of_getElem? he)
    rwa [Entry.fragmentWords, hx] at this
  rw [toInt_maxValue] at hle ⊢
  have hbase := h.base_le_words hf hspan hspan.le (Nat.le_refl _) hheld
  have hdistance : (distance extent.words : Int) = extent.words :=
    distance_of_nonneg (by omega) (by omega)
  have hle := hspan.le
  refine ⟨last, final, draft, hspan, ?_, hfinal, hheld, ?_, ?_⟩
  · rw [hwords]
    simp only [htokens]
    omega
  · rw [hwords]
    simp only
    omega
  · rw [hwords]
    simp only
    omega

theorem Measured.base_lt_words : s.base f < f.words := by
  obtain ⟨last, final, draft, hspan, -, -, hheld, hwords, -⟩ := h.words_eq hf
  have hbase := h.base_le_words hf hspan hspan.le (Nat.le_refl _) hheld
  omega

theorem Measured.exists_field {p : Nat} {e : Entry} (hle : f.start ≤ p)
    (hlt : p < f.start + f.tokens) (he : s.entries[p]? = some e) :
    ∃ offset, s.Field f p e offset := by
  obtain ⟨last, final, draft, hspan, hstop, hfinal, hheld, hwords, hbound⟩ := h.words_eq hf
  rw [toInt_maxValue] at hbound
  have hsize := hspan.lt_size
  obtain ⟨held, hat, -⟩ := hspan.held p hle (by omega)
  have hbase := h.base_le_words hf hspan hle (by omega) hat
  have htop : held.words + e.token.words ≤ draft.words + final.token.words := by
    by_cases hlast : p = last
    · subst hlast
      rw [hat] at hheld
      rw [he] at hfinal
      cases hheld
      cases hfinal
      exact Int.le_refl _
    · have := hspan.words_le hle (by omega) (Nat.le_refl _) he hat hheld
      omega
  have hplacement := placement_eq h.laidOut he
  rw [hat, Option.map_some] at hplacement
  have hdepth : held.depth = f.depth := by
    rw [depth_of_heldAt hat, hspan.bodies p hle (by omega), depth_of_fragment? h.laidOut hf]
  have hoffset : ((held.words.toNat : Nat) : Int) = held.words := Int.toNat_of_nonneg (by omega)
  refine ⟨held.words.toNat, he, hle, hlt, ⟨held, hat, hoffset.symm⟩, ?_, ?_, ?_, ?_⟩
  · rw [Entry.locator?, hplacement, Option.map_some, hdepth]
    simp only [Option.some.injEq, Locator.mk.injEq, true_and]
    omega
  · rw [Entry.wordDistance, Entry.offset?, hplacement]
    have : (distance held.words : Int) = held.words := distance_of_nonneg (by omega) (by omega)
    simp only [Option.map_some, Option.getD_some]
    omega
  · omega
  · omega

/-- The fields of a fragment do not reach into one another. -/
theorem Measured.field_le {p q : Nat} {e e' : Entry} {offset offset' : Nat}
    (hp : s.Field f p e offset) (hq : s.Field f q e' offset') (hpq : p < q) :
    offset + e.token.words ≤ offset' := by
  obtain ⟨last, -, -, hspan, hstop, -⟩ := h.words_eq hf
  obtain ⟨held, hat, hwords⟩ := hp.held
  obtain ⟨held', hat', hwords'⟩ := hq.held
  have hlast := hq.lt_stop
  have := hspan.words_le hp.start_le hpq (by omega) hp.entry hat hat'
  omega

theorem Measured.fields_apart {p q : Nat} {e e' : Entry} {offset offset' : Nat}
    (hp : s.Field f p e offset) (hq : s.Field f q e' offset') (hne : q ≠ p) :
    offset' + e'.token.words ≤ offset ∨ offset + e.token.words ≤ offset' := by
  rcases Nat.lt_or_gt_of_ne hne with hbefore | hbehind
  · exact .inl (h.field_le hf hq hp hbefore)
  · exact .inr (h.field_le hf hp hq hbehind)

end Measured

theorem Measured.marker_le_max {s : Schema} (h : s.Measured) :
    (distance s.markerWords : Int) ≤ s.maxFragmentWords := by
  obtain ⟨f, hf, hstarts⟩ := fragment?_zero h.laidOut h.compiled.size_pos
  have hbase := h.base_lt_words hf
  have hlargest := h.words_le_max hf
  rw [base, if_pos hstarts] at hbase
  rw [h.marker_eq]
  omega

end Schema

end FragmentPipe
