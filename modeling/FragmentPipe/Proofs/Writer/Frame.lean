import FragmentPipe.Proofs.Order

set_option autoImplicit false

/-!
# What the writing operations leave alone

Positions are folded onto cells, so a word that is stored far enough ahead lands on one that is
still to be read. The operations of the producer store only from the published head on and less than
one capacity behind the released tail. There no cell of a published word or byte is met.
-/
namespace FragmentPipe

namespace Ring

structure Keeps (r s : Ring) (low high : Mark) : Prop where
  words : ∀ i, low.words ≤ i → i < high.words → s.word i = r.word i
  bytes : ∀ i, low.bytes ≤ i → i < high.bytes → s.byte i = r.byte i

section

variable {r s t : Ring} {low high : Mark}

theorem Keeps.of_eq (hwords : s.words = r.words) (hbytes : s.bytes = r.bytes) :
    r.Keeps s low high := by
  refine ⟨fun i _ _ => ?_, fun i _ _ => ?_⟩
  · rw [word, word, hwords]
  · rw [byte, byte, hbytes]

theorem Keeps.trans (hrs : r.Keeps s low high) (hst : s.Keeps t low high) : r.Keeps t low high :=
  ⟨fun i hlow hhigh => (hst.words i hlow hhigh).trans (hrs.words i hlow hhigh),
    fun i hlow hhigh => (hst.bytes i hlow hhigh).trans (hrs.bytes i hlow hhigh)⟩

theorem Keeps.mono {low' high' : Mark} (h : r.Keeps s low high) (hlow : low ≤ low')
    (hhigh : high' ≤ high) : r.Keeps s low' high' :=
  ⟨fun i hi hi' => h.words i (Nat.le_trans hlow.1 hi) (Nat.lt_of_lt_of_le hi' hhigh.1),
    fun i hi hi' => h.bytes i (Nat.le_trans hlow.2 hi) (Nat.lt_of_lt_of_le hi' hhigh.2)⟩

theorem spanAt_congr {position : Nat}
    (h : ∀ i, i < 2 → s.word (position + i) = r.word (position + i)) :
    s.spanAt position = r.spanAt position := by
  have hstart := h 0 (by decide)
  have hlength := h 1 (by decide)
  simp only [Nat.add_zero] at hstart
  simp only [spanAt, hstart, hlength]

theorem spanBytes_congr {base position limit : Nat}
    (hwords : ∀ i, i < 2 → s.word (position + i) = r.word (position + i))
    (hbytes : ∀ i, base + (r.spanAt position).1 ≤ i →
      i < base + (r.spanAt position).1 + (r.spanAt position).2 → s.byte i = r.byte i) :
    s.spanBytes base position limit = r.spanBytes base position limit := by
  simp only [spanBytes, spanAt_congr hwords, Channel.read]
  refine List.map_congr_left fun i hi => ?_
  have hlt := List.mem_range.1 hi
  exact hbytes _ (by omega) (by omega)

theorem valueAt_congr {base position : Nat} {shape : Shape}
    (hwords : ∀ i, i < shape.words → s.word (position + i) = r.word (position + i))
    (hbytes : shape = .bytes → ∀ i, base + (r.spanAt position).1 ≤ i →
      i < base + (r.spanAt position).1 + (r.spanAt position).2 → s.byte i = r.byte i) :
    s.valueAt base position shape = r.valueAt base position shape := by
  cases shape with
  | word => exact congrArg Value.word (hwords 0 (by decide))
  | long =>
    have hhigh := hwords 0 (by decide)
    have hlow := hwords 1 (by decide)
    simp only [Nat.add_zero] at hhigh
    simp only [valueAt, longAt, hhigh, hlow]
  | decimal =>
    have hexponent := hwords 0 (by decide)
    have hhigh := hwords 1 (by decide)
    have hlow := hwords 2 (by decide)
    simp only [Nat.add_zero] at hexponent
    simp only [valueAt, longAt, Nat.add_assoc, Nat.reduceAdd] at hexponent hhigh hlow ⊢
    rw [hexponent, hhigh, hlow]
  | bytes => simp only [valueAt, spanAt_congr hwords, spanBytes_congr hwords (hbytes rfl)]

variable (r)

theorem keeps_setWords {position : Nat} {values : List Int32} (hhigh : high.words ≤ position)
    (hroom : position + values.length ≤ low.words + r.capacity.words) :
    r.Keeps (r.setWords position values) low high := by
  have hcapacity : r.capacity.words = r.words.capacity := rfl
  refine ⟨fun i hlow hi => ?_, fun i _ _ => rfl⟩
  exact r.words.get_write_outside low.words values (by omega) hroom hlow (by omega)
    (.inl (by omega))

theorem keeps_setWord {position : Nat} (value : Int32) (hhigh : high.words ≤ position)
    (hroom : position < low.words + r.capacity.words) :
    r.Keeps (r.setWord position value) low high :=
  r.keeps_setWords hhigh (show position + [value].length ≤ low.words + r.capacity.words from hroom)

theorem keeps_setBytes {position : Nat} {data : List UInt8} (hhigh : high.bytes ≤ position)
    (hroom : position + data.length ≤ low.bytes + r.capacity.bytes) :
    r.Keeps (r.setBytes position data) low high := by
  have hcapacity : r.capacity.bytes = r.bytes.capacity := rfl
  refine ⟨fun i _ _ => rfl, fun i hlow hi => ?_⟩
  exact r.bytes.get_write_outside low.bytes data (by omega) hroom hlow (by omega)
    (.inl (by omega))

theorem keeps_copyPrepared (source : Ring) (c : Consumer) {head : Mark} (hhigh : high ≤ head)
    (hroom : head + c.extent ≤ low + r.capacity) :
    r.Keeps (r.copyPrepared source c head) low high := by
  obtain ⟨hwords, hbytes⟩ := hhigh
  obtain ⟨hroomWords, hroomBytes⟩ := hroom
  simp only [Mark.words_add, Mark.bytes_add, capacity] at hroomWords hroomBytes
  refine ⟨fun i hlow hi => ?_, fun i hlow hi => ?_⟩
  · exact r.words.get_copyFrom_outside low.words source.words c.tail.words (by omega)
      hroomWords hlow (by omega) (.inl (by omega))
  · exact r.bytes.get_copyFrom_outside low.bytes source.bytes c.tail.bytes (by omega)
      hroomBytes hlow (by omega) (.inl (by omega))

theorem keeps_of_copyPrepared (source : Ring) (c : Consumer) (hroom : c.extent ≤ r.capacity) :
    source.Keeps (r.copyPrepared source c c.tail) c.tail (c.tail + c.extent) := by
  obtain ⟨hwords, hbytes⟩ := hroom
  refine ⟨fun i hlow hi => ?_, fun i hlow hi => ?_⟩
  · obtain ⟨i, rfl⟩ := Nat.exists_eq_add_of_le hlow
    exact r.words.get_copyFrom_inside _ source.words c.tail.words hwords
      (Nat.lt_of_add_lt_add_left hi)
  · obtain ⟨i, rfl⟩ := Nat.exists_eq_add_of_le hlow
    exact r.bytes.get_copyFrom_inside _ source.bytes c.tail.bytes hbytes
      (Nat.lt_of_add_lt_add_left hi)

theorem keeps_repeatPrepared (c : Consumer) {head : Mark} (hhigh : high ≤ head)
    (hroom : head + c.extent ≤ low + r.capacity) :
    r.Keeps (r.repeatPrepared c head) low high := by
  obtain ⟨hwords, hbytes⟩ := hhigh
  obtain ⟨hroomWords, hroomBytes⟩ := hroom
  simp only [Mark.words_add, Mark.bytes_add, capacity] at hroomWords hroomBytes
  refine ⟨fun i hlow hi => ?_, fun i hlow hi => ?_⟩
  · exact r.words.get_copyWithin_outside low.words c.tail.words (by omega) hroomWords hlow
      (by omega) (.inl (by omega))
  · exact r.bytes.get_copyWithin_outside low.bytes c.tail.bytes (by omega) hroomBytes hlow
      (by omega) (.inl (by omega))

end

end Ring

namespace Pipe

/-- The words and bytes that are published and not yet released stay as they are. -/
def KeepsPublished (p q : Pipe) : Prop := p.ring.Keeps q.ring p.ring.tail p.ring.head

section

variable {p : Pipe}

theorem word_storeTrailer {opened : OpenFragment} (h : p.producer.pending = some opened) :
    p.storeTrailer.ring.word opened.trailer =
      Int32.ofNat (p.producer.head.bytes - opened.bytesStart) := by
  unfold storeTrailer
  rw [h]
  exact p.ring.word_setWord_self _ _

/-- The trailer lies behind everything else that was stored. -/
theorem Ordered.keeps_storeTrailer (h : p.Ordered) {opened : OpenFragment}
    (hopened : p.producer.pending = some opened) :
    p.ring.Keeps p.storeTrailer.ring p.ring.tail ⟨opened.trailer, p.producer.head.bytes⟩ := by
  have hroom := h.room.1
  have hhigh := (h.pending opened hopened).2
  simp only [Mark.words_add] at hroom
  unfold Pipe.storeTrailer
  simp only [hopened]
  exact p.ring.keeps_setWord _ (Nat.le_refl _) (by omega)

/-- Opening a fragment stores the id of a message behind the producer's head, and else nothing. -/
theorem Opens.stores {s : Schema} {q : Pipe} {f : Fragment} {depth : Nat} {cursor : Int}
    (hs : s.Measured) (hschema : p.schema = s) (hf : s.fragment? cursor = some f)
    (hopens : Opens f depth p q) (hpending : p.producer.pending = none)
    (hroom : p.producer.head.words + f.words ≤ p.ring.tail.words + p.ring.capacity.words) :
    p.ring.Keeps q.ring p.ring.tail p.producer.head ∧
      (f.startsMessage = true →
        q.ring.word (p.producer.head.words + s.idDistance) = Int32.ofNat f.start) := by
  have hbase := hs.base_lt_words hf
  have hring := hopens.ring
  rw [storeTrailer_of_none hpending, hschema] at hring
  rw [hring]
  constructor
  · split
    · rename_i hmessage
      rw [Schema.base, if_pos hmessage] at hbase
      exact p.ring.keeps_setWord _ (Nat.le_add_right _ _) (by omega)
    · exact .of_eq rfl rfl
  · intro hmessage
    rw [if_pos hmessage]
    exact p.ring.word_setWord_self _ _

theorem Marks.stores {s : Schema} {q : Pipe} (hs : s.Accepted) (hschema : p.schema = s)
    {seen : Mark} (hmarks : Marks seen p q) (hpending : p.producer.pending = none)
    (htail : p.ring.tail.words ≤ p.producer.head.words)
    (hroom : p.producer.head.words + (s.idDistance + 2) ≤
      p.ring.tail.words + p.ring.capacity.words) :
    p.ring.Keeps q.ring p.ring.tail p.producer.head ∧
      q.ring.word (p.producer.head.words + s.idDistance) = -1 ∧
      q.ring.word (p.producer.head.words + s.idDistance + 1) = 0 := by
  have hwords := hmarks.words
  rw [storeTrailer_of_none hpending, hschema, hs.marker_eq] at hwords
  obtain ⟨r, hr⟩ : ∃ r, r = p.ring.setWord (p.producer.head.words + s.idDistance) (-1) := ⟨_, rfl⟩
  have hcapacity : r.capacity = p.ring.capacity := hr ▸ p.ring.capacity_setWord _ _
  have hfirst : p.ring.Keeps r p.ring.tail p.producer.head := by
    rw [hr]
    exact p.ring.keeps_setWord _ (Nat.le_add_right _ _) (by omega)
  have hsecond : r.Keeps (r.setWord (p.producer.head.words + s.idDistance + 1) 0) p.ring.tail
      ⟨p.producer.head.words + s.idDistance + 1, p.producer.head.bytes⟩ :=
    r.keeps_setWord _ (Nat.le_refl _) (by rw [hcapacity]; omega)
  have hring : (r.setWord (p.producer.head.words + s.idDistance + 1) 0).Keeps q.ring p.ring.tail
      ⟨p.producer.head.words + (s.idDistance + 2), p.producer.head.bytes⟩ := by
    refine .of_eq ?_ ?_
    · rw [hwords, hr]
      rfl
    · rw [hmarks.bytes, hr]
      rfl
  refine ⟨?_, ?_, ?_⟩
  · exact (hfirst.trans (hsecond.mono (Mark.le_refl _) ⟨by simp only; omega, Nat.le_refl _⟩)).trans
      (hring.mono (Mark.le_refl _) ⟨by simp only; omega, Nat.le_refl _⟩)
  · rw [hring.words _ (by omega) (by simp only; omega),
      hsecond.words _ (by omega) (by simp only; omega), hr]
    exact p.ring.word_setWord_self _ _
  · rw [hring.words _ (by omega) (by simp only; omega)]
    exact r.word_setWord_self _ _

theorem keepsPublished_of_eq {q : Pipe} (h : q.ring = p.ring) : p.KeepsPublished q :=
  .of_eq (by rw [h]) (by rw [h])

theorem keepsPublished_storeTrailer (h : p.Ordered) : p.KeepsPublished p.storeTrailer := by
  cases hpending : p.producer.pending with
  | none => exact keepsPublished_of_eq (congrArg Pipe.ring (storeTrailer_of_none hpending))
  | some opened =>
    exact (h.keeps_storeTrailer hpending).mono (Mark.le_refl _)
      ⟨(h.pending opened hpending).1, h.published.2⟩

theorem keepsPublished_publish (h : p.Ordered) : p.KeepsPublished p.publish :=
  (keepsPublished_storeTrailer h).trans (.of_eq rfl rfl)

theorem keepsPublished_openAt (hs : p.schema.Measured) (h : p.Ordered) (cursor : Int)
    (bytes : Nat) : p.KeepsPublished (p.openAt cursor bytes).2 := by
  rcases p.openAt_cases cursor bytes with
    ⟨-, hopen⟩ | ⟨f, hf, ⟨seen, hseen, hfits, ⟨-, hopen⟩ | ⟨-, hopen⟩⟩ | ⟨-, hopen⟩⟩
  · rw [hopen]
    exact keepsPublished_of_eq rfl
  · rw [hopen]
    have hroom := (h.fits hseen hfits).1
    simp only [Mark.words_add] at hroom
    have hopens := (p.glance seen).opens_storeTrailer f (openDepth f)
    have hbehind := (hopens.stores hs (p.glance seen).schema_storeTrailer hf
      (pending_storeTrailer _) (by
        rw [head_storeTrailer, ring_tail_storeTrailer, capacity_storeTrailer]
        exact hroom)).1
    rw [ring_tail_storeTrailer, head_storeTrailer] at hbehind
    exact (keepsPublished_storeTrailer (h.glance hseen)).trans
      (hbehind.mono (Mark.le_refl _) h.published)
  · rw [hopen]
    exact keepsPublished_of_eq rfl
  · rw [hopen]
    exact keepsPublished_of_eq rfl

theorem keepsPublished_publishMarker (hs : p.schema.Accepted) (h : p.Ordered) :
    p.KeepsPublished p.publishMarker.2 := by
  rcases p.publishMarker_cases with ⟨seen, hseen, hfits, hmarker⟩ | ⟨-, hmarker⟩
  · rw [hmarker]
    have hroom := (h.fits hseen hfits).1
    simp only [Mark.words_add, Mark.ofWords, hs.marker_eq] at hroom
    have hbehind := ((p.marks_storeTrailer seen).stores hs p.schema_storeTrailer
      p.pending_storeTrailer (by
      rw [ring_tail_storeTrailer, head_storeTrailer]
      exact Nat.le_trans h.tail_le_head h.published.1) (by
      rw [head_storeTrailer, ring_tail_storeTrailer, capacity_storeTrailer]
      exact hroom)).1
    rw [ring_tail_storeTrailer, head_storeTrailer] at hbehind
    exact (keepsPublished_storeTrailer h).trans (hbehind.mono (Mark.le_refl _) h.published)
  · rw [hmarker]
    exact keepsPublished_storeTrailer h

theorem keepsPublished_claim (h : p.Ordered) (words : Nat) :
    p.KeepsPublished (p.claim words).2 := by
  rcases p.claim_cases words with ⟨seen, hseen, -, hclaim⟩ | ⟨-, cause, hclaim⟩
  · rw [hclaim]
    exact (keepsPublished_storeTrailer (h.glance hseen) :)
  · rw [hclaim]
    exact keepsPublished_of_eq rfl

theorem keepsPublished_accept (h : p.Ordered) (c : Consumer) (transfer : Ring → Mark → Ring)
    (htransfer : ∀ (r : Ring) (low high head : Mark), high ≤ head →
      head + c.extent ≤ low + r.capacity → r.Keeps (transfer r head) low high) :
    p.KeepsPublished (p.accept c transfer).2 := by
  rcases p.accept_cases c transfer with
    ⟨-, haccept⟩ | ⟨-, ⟨seen, hseen, hfits, haccept⟩ | ⟨-, haccept⟩⟩
  · rw [haccept]
    exact keepsPublished_of_eq rfl
  · rw [haccept]
    have happends := appends_append (p.glance seen) c transfer
    have hcapacity := (p.glance seen).capacity_storeTrailer
    have hkeeps : p.KeepsPublished (p.glance seen).storeTrailer :=
      keepsPublished_storeTrailer (h.glance hseen)
    obtain ⟨r, hr⟩ : ∃ r, r = { (p.glance seen).storeTrailer.ring with head := p.producer.head } :=
      ⟨_, rfl⟩
    have hsame : p.ring.Keeps r p.ring.tail p.ring.head := by
      rw [hr]
      exact Ring.Keeps.trans hkeeps (.of_eq rfl rfl)
    have hcopied : r.Keeps (transfer r p.producer.head) p.ring.tail p.ring.head := by
      apply htransfer r _ _ _ h.published
      rw [show r.capacity = p.ring.capacity by rw [hr]; exact hcapacity]
      exact h.fits hseen hfits
    refine (hsame.trans hcopied).trans (.of_eq ?_ ?_)
    · rw [happends.ring, hr]
      rfl
    · rw [happends.ring, hr]
      rfl
  · rw [haccept]
    exact keepsPublished_of_eq rfl

end

end Pipe

end FragmentPipe
