import FragmentPipe.Proofs.Refused.Writes

set_option autoImplicit false

namespace FragmentPipe

namespace Schema

variable {s : Schema} {f : Fragment} {loc other : Locator} {shape shape' : Shape}

theorem Measured.base_le_offset (hs : s.Measured) {cursor : Int} (hf : s.fragment? cursor = some f)
    (h : s.FieldAt f loc shape) : s.base f ≤ loc.offset := by
  obtain ⟨position, entry, hstart, hstop, hentry, hloc, -⟩ := h
  obtain ⟨offset, hfield⟩ := hs.exists_field hf hstart hstop hentry
  rw [hfield.locator] at hloc
  cases hloc
  exact hfield.base_le

/-- Fields at different locations of a fragment have no word in common. -/
theorem Measured.fieldsAt_apart (hs : s.Measured) {cursor : Int} (hf : s.fragment? cursor = some f)
    (h : s.FieldAt f loc shape) (h' : s.FieldAt f other shape') (hne : other ≠ loc) :
    other.offset + shape'.words ≤ loc.offset ∨ loc.offset + shape.words ≤ other.offset := by
  obtain ⟨p, e, hstart, hstop, hentry, hloc, hshape⟩ := h
  obtain ⟨q, e', hstart', hstop', hentry', hloc', hshape'⟩ := h'
  obtain ⟨offset, hfield⟩ := hs.exists_field hf hstart hstop hentry
  obtain ⟨offset', hfield'⟩ := hs.exists_field hf hstart' hstop' hentry'
  rw [hfield.locator] at hloc
  rw [hfield'.locator] at hloc'
  cases hloc
  cases hloc'
  have hpositions : q ≠ p := by
    rintro rfl
    obtain ⟨-, rfl⟩ := hfield.unique hfield'
    exact hne rfl
  rw [← Token.words_of_shape? hshape, ← Token.words_of_shape? hshape']
  exact hs.fields_apart hf hfield hfield' hpositions

end Schema

/-- The writes to each field come in the same order in both, and so do those of byte strings. -/
def Interleaves (fields others : List (Locator × Value)) : Prop :=
  (∀ loc, fields.filter (·.1 = loc) = others.filter (·.1 = loc)) ∧
    fields.filter (·.2.shape = .bytes) = others.filter (·.2.shape = .bytes)

def Exchangeable (field other : Locator × Value) : Prop :=
  other.1 ≠ field.1 ∧ ¬ (field.2.shape = .bytes ∧ other.2.shape = .bytes)

namespace Interleaves

variable {fields others : List (Locator × Value)} {field : Locator × Value}

theorem eq_nil (h : Interleaves [] others) : others = [] := by
  cases others with
  | nil => rfl
  | cons field rest =>
    have hfirst := h.1 field.1
    rw [List.filter_nil, List.filter_cons_of_pos (by simp)] at hfirst
    cases hfirst

theorem mem (h : Interleaves fields others) (hmem : field ∈ others) : field ∈ fields := by
  have hfilter : field ∈ others.filter (·.1 = field.1) := List.mem_filter.2 ⟨hmem, by simp⟩
  rw [← h.1] at hfilter
  exact (List.mem_filter.1 hfilter).1

/-- What is written first in one can be written first in the other. -/
theorem exists_front (h : Interleaves (field :: fields) others) :
    ∃ front rest, others = front ++ field :: rest ∧ (∀ other ∈ front, Exchangeable field other) ∧
      Interleaves fields (front ++ rest) := by
  have hfirst := (h.1 field.1).symm
  rw [List.filter_cons_of_pos (by simp)] at hfirst
  obtain ⟨front, rest, rfl, hfront, -, -⟩ := List.filter_eq_cons_iff.1 hfirst
  have hapart : ∀ other ∈ front, other.1 ≠ field.1 := fun other hother hsame =>
    hfront other hother (by simpa using hsame)
  have hbytes : field.2.shape = .bytes → ∀ other ∈ front, other.2.shape ≠ .bytes := by
    intro hfield other hother hshape
    have hbytes := h.2
    rw [List.filter_cons_of_pos (by simpa using hfield), List.filter_append] at hbytes
    -- The first byte string in front would be the one that is written to the field.
    cases hfilter : front.filter (·.2.shape = .bytes) with
    | nil => exact List.filter_eq_nil_iff.1 hfilter other hother (by simpa using hshape)
    | cons first more =>
      rw [hfilter] at hbytes
      have hmem : first ∈ front := (List.mem_filter.1 (hfilter ▸ List.mem_cons_self)).1
      obtain ⟨rfl, -⟩ := List.cons.inj hbytes
      exact hapart _ hmem rfl
  refine ⟨front, rest, rfl, fun other hother => ⟨hapart other hother, fun hboth =>
    hbytes hboth.1 other hother hboth.2⟩, fun loc => ?_, ?_⟩
  · have hloc := h.1 loc
    simp only [List.filter_append, List.filter_cons] at hloc ⊢
    by_cases hsame : field.1 = loc
    · have hnone : front.filter (·.1 = loc) = [] :=
        List.filter_eq_nil_iff.2 fun other hother => by
          simpa [← hsame] using hapart other hother
      simpa [hsame, hnone] using hloc
    · simpa [hsame] using hloc
  · have hall := h.2
    simp only [List.filter_append, List.filter_cons] at hall ⊢
    by_cases hshape : field.2.shape = .bytes
    · have hnone : front.filter (·.2.shape = .bytes) = [] :=
        List.filter_eq_nil_iff.2 fun other hother => by
          simpa using hbytes hshape other hother
      simpa [hshape, hnone] using hall
    · simpa [hshape] using hall

end Interleaves

namespace Pipe

def putWords (p : Pipe) (position : Nat) (words : List Int32) : Pipe :=
  { p with ring := p.ring.setWords position words }

section

variable {p : Pipe} {loc : Locator} {value : Value} {position start : Nat} {words : List Int32}

theorem storeWords_eq (hstart : p.producer.starts[loc.depth]? = some start) :
    p.storeWords loc words = (.ok (), p.putWords (start + loc.offset) words) := by
  rw [storeWords, Producer.position?, hstart]
  rfl

theorem write_eq_storeWords (h : value.shape ≠ .bytes) :
    ∃ words : List Int32, words.length = value.shape.words ∧
      ∀ (p : Pipe) (loc : Locator), p.write loc value = p.storeWords loc words := by
  cases value with
  | word | long | decimal => exact ⟨_, rfl, fun _ _ => rfl⟩
  | bytes => exact absurd rfl h

theorem roomFor_putWords (request : Mark) : (p.putWords position words).roomFor request =
    ((p.roomFor request).1, (p.roomFor request).2.putWords position words) := by
  have hcapacity : (p.ring.setWords position words).capacity = p.ring.capacity :=
    p.ring.capacity_setWords position words
  simp only [roomFor, putWords, hcapacity]
  split <;> rfl

theorem putWords_comm {others : List Int32} {place : Nat}
    (h : ∀ i j, i < words.length → j < others.length →
      p.ring.words.slot (position + i) ≠ p.ring.words.slot (place + j)) :
    (p.putWords position words).putWords place others =
      (p.putWords place others).putWords position words := by
  simp only [putWords, Ring.setWords, p.ring.words.write_comm h]

theorem storeBytes_putWords (hstart : p.producer.starts[loc.depth]? = some start)
    {data : List UInt8}
    (hapart : ∀ i j, i < words.length → j < 2 →
      p.ring.words.slot (position + i) ≠ p.ring.words.slot (start + loc.offset + j)) :
    (p.putWords position words).storeBytes loc data =
      ((p.storeBytes loc data).1, (p.storeBytes loc data).2.putWords position words) := by
  have hstarts : (p.roomFor (.ofBytes data.length)).2.producer.starts = p.producer.starts := by
    rcases p.roomFor_cases (.ofBytes data.length) with ⟨seen, -, -, h⟩ | ⟨-, h⟩ <;> rw [h] <;> rfl
  have hring := p.ring_roomFor (.ofBytes data.length)
  obtain ⟨⟨room, q⟩, hroom⟩ : ∃ result, p.roomFor (.ofBytes data.length) = result := ⟨_, rfl⟩
  rw [hroom] at hstarts hring
  unfold storeBytes
  simp only [roomFor_putWords, hroom]
  cases room with
  | false => rfl
  | true =>
    have hproducer : (q.putWords position words).producer = q.producer := rfl
    simp only [hproducer, Bool.not_true, Bool.false_eq_true, ↓reduceIte]
    split
    · rfl
    · split
      · have hbegin : (q.appendBytes data).producer.starts[loc.depth]? = some start := by
          rw [← hstart, ← hstarts]
          rfl
        obtain ⟨span, hlength, hspan⟩ : ∃ span : List Int32, span.length = 2 ∧ span =
            [Int32.ofNat (q.producer.head.bytes - q.producer.byteBase), Int32.ofNat data.length] :=
          ⟨_, rfl, rfl⟩
        have hcomm : ((q.appendBytes data).putWords position words).putWords
            (start + loc.offset) span =
              ((q.appendBytes data).putWords (start + loc.offset) span).putWords position words :=
          putWords_comm fun i j hi hj => by
            have hslots := hapart i j hi (hlength ▸ hj)
            rwa [← hring] at hslots
        rw [hspan] at hcomm
        have hput : ((q.appendBytes data).putWords position words).producer.starts[loc.depth]? =
            some start := hbegin
        exact (storeWords_eq hput).trans ((congrArg (Prod.mk (Except.ok ())) hcomm).trans
          (congrArg (fun r => (r.1, r.2.putWords position words)) (storeWords_eq hbegin).symm))
      · rfl

theorem write_putWords (hstart : p.producer.starts[loc.depth]? = some start)
    (hapart : ∀ i j, i < words.length → j < value.shape.words →
      p.ring.words.slot (position + i) ≠ p.ring.words.slot (start + loc.offset + j)) :
    (p.putWords position words).write loc value =
      ((p.write loc value).1, (p.write loc value).2.putWords position words) := by
  by_cases hshape : value.shape = .bytes
  · cases value with
    | word | long | decimal => cases hshape
    | bytes data => exact storeBytes_putWords hstart hapart
  · obtain ⟨image, hlength, hwrite⟩ := write_eq_storeWords hshape
    have hput : (p.putWords position words).producer.starts[loc.depth]? = some start := hstart
    rw [hwrite, hwrite, storeWords_eq hput, storeWords_eq hstart]
    rw [← hlength] at hapart
    exact congrArg (Prod.mk (Except.ok ())) (putWords_comm hapart)

end

structure BeginsAt (p : Pipe) (f : Fragment) (start : Nat) : Prop where
  start : p.producer.starts[f.depth]? = some start
  room : f.words ≤ p.ring.capacity.words

section

variable {s : Schema} {p : Pipe} {f : Fragment} {start : Nat}

theorem BeginsAt.write (h : p.BeginsAt f start) (loc : Locator) (value : Value) :
    (p.write loc value).2.BeginsAt f start := by
  refine ⟨?_, ?_⟩
  · rw [(p.retains_write loc value).starts]
    exact h.start
  · rw [(p.goesOn_write loc value).capacity]
    exact h.room

variable (hs : s.Measured) {cursor : Int} (hf : s.fragment? cursor = some f)
  (h : p.BeginsAt f start)

include hs hf h

/-- Words of different fields of a fragment that fits the ring have cells of their own. -/
theorem BeginsAt.slot_ne {loc other : Locator} {shape shape' : Shape}
    (hfield : s.FieldAt f loc shape) (hother : s.FieldAt f other shape') (hne : other ≠ loc)
    {i j : Nat} (hi : i < shape.words) (hj : j < shape'.words) :
    p.ring.words.slot (start + loc.offset + i) ≠ p.ring.words.slot (start + other.offset + j) := by
  have hapart := hs.fieldsAt_apart hf hfield hother hne
  have hlast := (hs.fieldAt hf hfield).2
  have hlast' := (hs.fieldAt hf hother).2
  have hroom : f.words ≤ p.ring.words.capacity := h.room
  exact p.ring.words.slot_ne_of_ne start (by omega) (by omega) (by omega) (by omega) (by omega)

theorem BeginsAt.write_fixed_first {field other : Locator × Value}
    (hfield : s.FieldAt f field.1 field.2.shape) (hother : s.FieldAt f other.1 other.2.shape)
    (hne : other.1 ≠ field.1) (hfixed : field.2.shape ≠ .bytes) :
    ((p.write field.1 field.2).2.write other.1 other.2).2 =
      ((p.write other.1 other.2).2.write field.1 field.2).2 := by
  obtain ⟨words, hlength, hwrite⟩ := write_eq_storeWords hfixed
  have hdepth : ∀ {loc : Locator} {shape : Shape} {q : Pipe}, s.FieldAt f loc shape →
      q.BeginsAt f start → q.producer.starts[loc.depth]? = some start := by
    intro loc shape q hat hbegins
    rw [(hs.fieldAt hf hat).1]
    exact hbegins.start
  rw [hwrite, hwrite, storeWords_eq (hdepth hfield h),
    storeWords_eq (hdepth hfield (h.write other.1 other.2))]
  rw [write_putWords (hdepth hother h) fun i j hi hj =>
    h.slot_ne hs hf hfield hother hne (hlength ▸ hi) hj]

/-- Two writes that are exchangeable come to the same in either order. -/
theorem BeginsAt.write_exchange {field other : Locator × Value}
    (hfield : s.FieldAt f field.1 field.2.shape) (hother : s.FieldAt f other.1 other.2.shape)
    (hexchange : Exchangeable field other) :
    ((p.write field.1 field.2).2.write other.1 other.2).2 =
      ((p.write other.1 other.2).2.write field.1 field.2).2 := by
  obtain ⟨hne, hbytes⟩ := hexchange
  by_cases hfixed : field.2.shape = .bytes
  · exact (h.write_fixed_first hs hf hother hfield hne.symm fun hboth =>
      hbytes ⟨hfixed, hboth⟩).symm
  · exact h.write_fixed_first hs hf hfield hother hne hfixed

theorem BeginsAt.fill_front {field : Locator × Value} {front rest : List (Locator × Value)}
    (hfield : s.FieldAt f field.1 field.2.shape)
    (hfront : ∀ other ∈ front, s.FieldAt f other.1 other.2.shape ∧ Exchangeable field other) :
    p.fill (front ++ field :: rest) = p.fill (field :: (front ++ rest)) := by
  induction front generalizing p with
  | nil => rfl
  | cons other front ih =>
    obtain ⟨⟨hother, hexchange⟩, hmore⟩ := List.forall_mem_cons.1 hfront
    calc p.fill (other :: front ++ field :: rest)
        = (p.write other.1 other.2).2.fill (field :: (front ++ rest)) :=
          ih (h.write other.1 other.2) hmore
      _ = ((p.write other.1 other.2).2.write field.1 field.2).2.fill (front ++ rest) := rfl
      _ = ((p.write field.1 field.2).2.write other.1 other.2).2.fill (front ++ rest) := by
          rw [h.write_exchange hs hf hfield hother hexchange]

/-- By induction over the writes of one order, each of which is brought to the front of the
other. -/
theorem BeginsAt.fill_interleaved {fields others : List (Locator × Value)}
    (hfields : ∀ field ∈ fields, s.FieldAt f field.1 field.2.shape)
    (hsame : Interleaves fields others) : p.fill others = p.fill fields := by
  induction fields generalizing p others with
  | nil => rw [hsame.eq_nil]
  | cons field fields ih =>
    obtain ⟨hfield, hrest⟩ := List.forall_mem_cons.1 hfields
    obtain ⟨front, rest, rfl, hexchange, hmore⟩ := hsame.exists_front
    rw [h.fill_front hs hf hfield fun other hother =>
      ⟨hfields other (hsame.mem (List.mem_append_left _ hother)), hexchange other hother⟩]
    exact ih (h.write field.1 field.2) hrest hmore

end

end Pipe

end FragmentPipe
