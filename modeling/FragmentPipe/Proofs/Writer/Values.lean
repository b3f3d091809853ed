import FragmentPipe.Proofs.Writer.Frame

set_option autoImplicit false

namespace FragmentPipe

def Value.byteLength : Value → Nat
  | .bytes data => data.length
  | _ => 0

theorem toInt_ofNat {n : Nat} (h : n ≤ 0x7fffffff) : (Int32.ofNat n).toInt = n :=
  Int32.toInt_ofNat_of_lt (Nat.lt_succ_of_le h)

namespace Ring

/-- A value lies at a position, and its bytes, if it has any, between two others. -/
structure Stores (r : Ring) (base position low high : Nat) (shape : Shape) (value : Value) :
    Prop where
  value : r.valueAt base position shape = value
  span : shape = .bytes → low ≤ base + (r.spanAt position).1 ∧
    base + (r.spanAt position).1 + (r.spanAt position).2 ≤ high

section Values

variable {r r' : Ring} {base position low high : Nat} {shape : Shape} {value : Value}

theorem Stores.of_keeps (h : r.Stores base position low high shape value)
    (hkeeps : r.Keeps r' ⟨position, low⟩ ⟨position + shape.words, high⟩) :
    r'.Stores base position low high shape value := by
  have hwords : ∀ i, i < shape.words → r'.word (position + i) = r.word (position + i) :=
    fun i hi => hkeeps.words _ (Nat.le_add_right _ _) (Nat.add_lt_add_left hi _)
  refine ⟨?_, fun hbytes => ?_⟩
  · rw [valueAt_congr hwords, h.value]
    intro hbytes i hlow hhigh
    obtain ⟨hfirst, hlast⟩ := h.span hbytes
    exact hkeeps.bytes i (Nat.le_trans hfirst hlow) (Nat.lt_of_lt_of_le hhigh hlast)
  · subst hbytes
    rw [spanAt_congr hwords]
    exact h.span rfl

theorem Stores.mono {high' low' : Nat} (h : r.Stores base position low high shape value)
    (hlow : low' ≤ low) (hhigh : high ≤ high') :
    r.Stores base position low' high' shape value :=
  ⟨h.value, fun hbytes =>
    ⟨Nat.le_trans hlow (h.span hbytes).1, Nat.le_trans (h.span hbytes).2 hhigh⟩⟩

variable (r)

theorem word_setWords {words : List Int32} (hroom : words.length ≤ r.capacity.words) {i : Nat}
    {word : Int32} (hi : words[i]? = some word) :
    (r.setWords position words).word (position + i) = word := by
  obtain ⟨hlt, hword⟩ := List.getElem?_eq_some_iff.1 hi
  rw [← hword]
  exact r.words.get_write_inside position words hroom hlt

theorem stores_word (word : Int32) (hroom : 1 ≤ r.capacity.words) :
    (r.setWords position [word]).Stores base position low high .word (.word word) := by
  have hword : (r.setWords position [word]).word position = word :=
    r.word_setWords (i := 0) (by exact hroom) rfl
  exact ⟨congrArg Value.word hword, nofun⟩

theorem stores_long (long : Int64) (hroom : 2 ≤ r.capacity.words) :
    (r.setWords position [Long.high long, Long.low long]).Stores base position low high .long
      (.long long) := by
  obtain ⟨s, hs⟩ : ∃ s, s = r.setWords position [Long.high long, Long.low long] := ⟨_, rfl⟩
  have hhigh : s.word position = Long.high long := by
    rw [hs]
    exact r.word_setWords (i := 0) (by exact hroom) rfl
  have hlow : s.word (position + 1) = Long.low long := by
    rw [hs]
    exact r.word_setWords (by exact hroom) rfl
  rw [← hs]
  refine ⟨?_, nofun⟩
  rw [valueAt, longAt, hhigh, hlow, Long.join_high_low]

theorem stores_decimal (exponent : Int32) (mantissa : Int64) (hroom : 3 ≤ r.capacity.words) :
    (r.setWords position [exponent, Long.high mantissa, Long.low mantissa]).Stores base position
      low high .decimal (.decimal exponent mantissa) := by
  obtain ⟨s, hs⟩ : ∃ s, s = r.setWords position
      [exponent, Long.high mantissa, Long.low mantissa] := ⟨_, rfl⟩
  have hexponent : s.word position = exponent := by
    rw [hs]
    exact r.word_setWords (i := 0) (by exact hroom) rfl
  have hhigh : s.word (position + 1) = Long.high mantissa := by
    rw [hs]
    exact r.word_setWords (by exact hroom) rfl
  have hlow : s.word (position + 1 + 1) = Long.low mantissa := by
    rw [hs]
    exact r.word_setWords (i := 2) (by exact hroom) rfl
  rw [← hs]
  refine ⟨?_, nofun⟩
  rw [valueAt, longAt, hexponent, hhigh, hlow, Long.join_high_low]

/-- Bytes are found again by their span, which is counted from the base. -/
theorem stores_bytes {data : List UInt8} {head : Nat} (hwords : 2 ≤ r.capacity.words)
    (hbytes : data.length ≤ r.capacity.bytes) (hbase : base ≤ head)
    (hspan : head - base + data.length ≤ Pipe.maxSpan) :
    ((r.setBytes head data).setWords position
      [Int32.ofNat (head - base), Int32.ofNat data.length]).Stores base position head
        (head + data.length) .bytes (.bytes data) := by
  have hmost : Pipe.maxSpan = 0x7fffffff := rfl
  obtain ⟨s, hs⟩ : ∃ s, s = (r.setBytes head data).setWords position
      [Int32.ofNat (head - base), Int32.ofNat data.length] := ⟨_, rfl⟩
  have hstart : s.word position = Int32.ofNat (head - base) := by
    rw [hs]
    exact word_setWords _ (i := 0) (by exact hwords) rfl
  have hlength : s.word (position + 1) = Int32.ofNat data.length := by
    rw [hs]
    exact word_setWords _ (by exact hwords) rfl
  have hsame : s.spanAt position = (head - base, data.length) := by
    rw [spanAt, hstart, hlength, toInt_ofNat (by omega), toInt_ofNat (by omega)]
    rfl
  have hhead : base + (head - base) = head := Nat.add_sub_cancel' hbase
  rw [← hs]
  constructor
  · rw [valueAt, spanBytes, hsame, Nat.min_self]
    simp only [hhead, Value.bytes.injEq]
    rw [hs]
    exact r.bytes.read_write head data hbytes
  · intro _
    simp only [hsame, hhead]
    exact ⟨Nat.le_refl _, Nat.le_refl _⟩

end Values

end Ring

namespace Pipe

/-- A value is put to a position among the words that are claimed, and its bytes behind the head. -/
structure Puts (position : Nat) (value : Value) (p q : Pipe) : Prop where
  schema : q.schema = p.schema
  consumer : q.consumer = p.consumer
  ring_head : q.ring.head = p.ring.head
  ring_tail : q.ring.tail = p.ring.tail
  capacity : q.ring.capacity = p.ring.capacity
  head : q.producer.head = p.producer.head + .ofBytes value.byteLength
  byteBase : q.producer.byteBase = p.producer.byteBase
  starts : q.producer.starts = p.producer.starts
  pending : q.producer.pending = p.producer.pending
  stores : q.ring.Stores p.producer.byteBase position p.producer.head.bytes q.producer.head.bytes
    value.shape value
  keeps : ∀ low high : Mark, p.ring.tail ≤ low → high ≤ p.producer.head →
    (high.words ≤ position ∨ position + value.shape.words ≤ low.words) →
      p.ring.Keeps q.ring low high

theorem Puts.word_eq {position : Nat} {value : Value} {p q : Pipe} (h : Puts position value p q)
    {i : Nat} (htail : p.ring.tail.words ≤ i) (hhead : i < p.producer.head.words)
    (hout : i < position ∨ position + value.shape.words ≤ i) : q.ring.word i = p.ring.word i :=
  (h.keeps ⟨i, p.ring.tail.bytes⟩ ⟨i + 1, 0⟩ ⟨htail, Nat.le_refl _⟩ ⟨hhead, Nat.zero_le _⟩
    hout).words i (Nat.le_refl _) (Nat.lt_succ_self _)

section Writes

variable {p : Pipe} {loc : Locator} {start : Nat}

theorem storeWords_puts (h : p.Ordered) (hstart : p.producer.starts[loc.depth]? = some start)
    (hlow : p.ring.tail.words ≤ start + loc.offset) {value : Value}
    (hhigh : start + loc.offset + value.shape.words ≤ p.producer.head.words) {words : List Int32}
    (hlength : words.length = value.shape.words) (hbytes : value.byteLength = 0)
    (hstores : value.shape.words ≤ p.ring.capacity.words →
      (p.ring.setWords (start + loc.offset) words).Stores p.producer.byteBase (start + loc.offset)
        p.producer.head.bytes p.producer.head.bytes value.shape value) :
    ∃ q, p.storeWords loc words = (.ok (), q) ∧ Puts (start + loc.offset) value p q := by
  have hroom := h.room.1
  simp only [Mark.words_add] at hroom
  have hcapacity : p.ring.capacity.words = p.ring.words.capacity := rfl
  refine ⟨{ p with ring := p.ring.setWords (start + loc.offset) words }, ?_, ?_⟩
  · rw [storeWords, Producer.position?, hstart]
    rfl
  · refine ⟨rfl, rfl, rfl, rfl, p.ring.capacity_setWords _ _, ?_, rfl, rfl, rfl,
      hstores (by omega), fun low high htail hhead hapart => ?_⟩
    · rw [hbytes]
      rfl
    · have htail' := htail.1
      have hhead' := hhead.1
      refine ⟨fun i hi hi' => ?_, fun i _ _ => rfl⟩
      exact p.ring.words.get_write_outside p.ring.tail.words words hlow (by omega) (by omega)
        (by omega) (by omega)

theorem storeBytes_puts (h : p.Ordered) (hstart : p.producer.starts[loc.depth]? = some start)
    (hlow : p.ring.tail.words ≤ start + loc.offset)
    (hhigh : start + loc.offset + 2 ≤ p.producer.head.words)
    (htail : p.ring.tail.bytes ≤ p.producer.head.bytes)
    (hbase : p.producer.byteBase ≤ p.producer.head.bytes) (data : List UInt8) :
    (∃ q, p.storeBytes loc data = (.ok (), q) ∧ Puts (start + loc.offset) (.bytes data) p q) ∨
      ∃ fault seen, p.storeBytes loc data = (.error fault, p.glance seen) := by
  rcases p.storeBytes_cases loc data with
    ⟨seen, hseen, hfits, ⟨cause, hstore⟩ | ⟨-, hstore⟩ | ⟨begin, hbegin, hspan, hstore⟩⟩ |
    ⟨-, cause, hstore⟩
  · exact .inr ⟨_, seen, hstore⟩
  · exact .inr ⟨_, seen, hstore⟩
  · rw [hstart] at hbegin
    cases hbegin
    have hroom := h.room.1
    have hfree := (h.fits hseen hfits).2
    have hbytes : p.ring.capacity.bytes = p.ring.bytes.capacity := rfl
    have hwords : p.ring.capacity.words = p.ring.words.capacity := rfl
    simp only [Mark.words_add, Mark.bytes_add, Mark.ofBytes] at hroom hfree
    refine .inl ⟨_, hstore, ⟨rfl, rfl, rfl, rfl, ?_, rfl, rfl, rfl, rfl, ?_, ?_⟩⟩
    · exact (Ring.capacity_setWords _ _ _).trans (p.ring.capacity_setBytes _ _)
    · exact p.ring.stores_bytes (by omega) (by omega) hbase hspan
    · intro low high hfrom hto hapart
      obtain ⟨hfromWords, hfromBytes⟩ := hfrom
      obtain ⟨htoWords, htoBytes⟩ := hto
      refine ⟨fun i hi hi' => ?_, fun i hi hi' => ?_⟩
      · exact p.ring.words.get_write_outside p.ring.tail.words
          [Int32.ofNat (p.producer.head.bytes - p.producer.byteBase), Int32.ofNat data.length] hlow
          (by exact Nat.le_trans hhigh hroom) (by omega) (by omega)
          (by
            simp only [Value.shape, Shape.words] at hapart
            simp only [List.length_cons, List.length_nil]
            omega)
      · exact p.ring.bytes.get_write_outside p.ring.tail.bytes data htail hfree (by omega)
          (by omega) (.inl (Nat.lt_of_lt_of_le hi' htoBytes))
  · exact .inr ⟨_, _, hstore⟩

theorem write_puts (loc : Locator) (value : Value) (h : p.Ordered)
    (hstart : p.producer.starts[loc.depth]? = some start)
    (hlow : p.ring.tail.words ≤ start + loc.offset)
    (hhigh : start + loc.offset + value.shape.words ≤ p.producer.head.words)
    (htail : p.ring.tail.bytes ≤ p.producer.head.bytes)
    (hbase : p.producer.byteBase ≤ p.producer.head.bytes) :
    (∃ q, p.write loc value = (.ok (), q) ∧ Puts (start + loc.offset) value p q) ∨
      ∃ fault seen, p.write loc value = (.error fault, p.glance seen) := by
  cases value with
  | word value =>
    exact .inl (storeWords_puts h hstart hlow hhigh rfl rfl fun hroom =>
      p.ring.stores_word value hroom)
  | long value =>
    exact .inl (storeWords_puts h hstart hlow hhigh rfl rfl fun hroom =>
      p.ring.stores_long value hroom)
  | decimal exponent mantissa =>
    exact .inl (storeWords_puts h hstart hlow hhigh rfl rfl fun hroom =>
      p.ring.stores_decimal exponent mantissa hroom)
  | bytes data => exact storeBytes_puts h hstart hlow hhigh htail hbase data

end Writes

end Pipe

end FragmentPipe
