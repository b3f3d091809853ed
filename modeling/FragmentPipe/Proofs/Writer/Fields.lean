import FragmentPipe.Proofs.Positions
import FragmentPipe.Proofs.Writer.Interleaved

set_option autoImplicit false

namespace FragmentPipe

namespace Channel

theorem read_min {α : Type} (c : Channel α) (position count limit : Nat) :
    c.read position (min count limit) = (c.read position count).take limit := by
  rw [read, read, ← List.map_take, List.take_range, Nat.min_comm]

end Channel

namespace Ring

structure KeepsAround (r r' : Ring) (s : Schema) (f : Fragment) (start : Nat) : Prop where
  front : ∀ i, i < s.base f → r'.word (start + i) = r.word (start + i)
  trailer : r'.word (start + f.words - 1) = r.word (start + f.words - 1)
  outside : ∀ i, (∀ k, k < f.words → r.words.slot (start + k) ≠ r.words.slot i) →
    r'.word i = r.word i

end Ring

def latest (loc : Locator) : List (Locator × Value) → Option Value
  | [] => none
  | field :: rest => (latest loc rest).or (if field.1 = loc then some field.2 else none)

namespace Pipe

/-- Those of the values that are taken, as they are offered one after the other. -/
def taken (p : Pipe) : List (Locator × Value) → List (Locator × Value)
  | [] => []
  | (loc, value) :: rest =>
    if (p.write loc value).1.isOk then (loc, value) :: (p.write loc value).2.taken rest
    else (p.write loc value).2.taken rest

/-- A field reads as a value, and as bytes it reads as those of the value, up to a limit. -/
structure ReadsAs (p : Pipe) (loc : Locator) (value : Value) : Prop where
  whole : p.readValue loc value.shape = .ok value
  length : ∀ data, value = .bytes data → p.readLength loc = .ok data.length
  bytes : ∀ data, value = .bytes data → ∀ limit, p.readBytes loc limit = .ok (data.take limit)
  text : ∀ data, value = .bytes data → p.readText loc = .ok (Text.decodeLossy data)

/-- A fragment is open and begins at a position; its bytes begin at another. -/
structure Filling (p : Pipe) (f : Fragment) (start first : Nat) : Prop where
  ordered : p.Ordered
  starts : p.producer.starts[f.depth]? = some start
  low : p.ring.tail.words ≤ start
  high : p.producer.head.words = start + f.words
  pending : p.producer.pending = some ⟨start + f.words - 1, first⟩
  byteBase : p.producer.byteBase ≤ p.producer.head.bytes
  released : p.ring.tail.bytes ≤ first
  gathered : first ≤ p.producer.head.bytes

def StoresField (p : Pipe) (s : Schema) (f : Fragment) (start first : Nat) (loc : Locator)
    (value : Value) : Prop :=
  s.FieldAt f loc value.shape ∧
    p.ring.Stores p.producer.byteBase (start + loc.offset) first p.producer.head.bytes value.shape
      value

section

variable {p q : Pipe} {s : Schema} {f : Fragment} {start first : Nat} {loc : Locator}
  {value : Value}

theorem ordered_write (h : p.Ordered) (loc : Locator) (value : Value) :
    (p.write loc value).2.Ordered := by
  cases value with
  | word | long | decimal => exact ordered_storeWords h loc _
  | bytes data => exact ordered_storeBytes h loc data

theorem goesOn_fill (p : Pipe) (fields : List (Locator × Value)) : p.GoesOn (p.fill fields) := by
  induction fields generalizing p with
  | nil => exact p.goesOn_refl
  | cons field rest ih => exact (p.goesOn_write field.1 field.2).trans (ih _)

theorem isOk_write_of_fixed (hstart : p.producer.starts[loc.depth]? = some start)
    (hfixed : value.shape ≠ .bytes) : (p.write loc value).1.isOk = true := by
  obtain ⟨words, -, hwrite⟩ := write_eq_storeWords hfixed
  rw [hwrite, storeWords_eq hstart]
  rfl

namespace Filling

theorem beginsAt (h : p.Filling f start first) : p.BeginsAt f start := by
  refine ⟨h.starts, ?_⟩
  have hlow := h.low
  have hhigh := h.high
  have hroom := h.ordered.room.1
  rw [Mark.words_add] at hroom
  omega

theorem of_opens {seen : Mark} (hs : p.schema.LaidOut) (h : p.Ordered) (hcounts : p.Counts)
    (hreleased : p.ring.tail.bytes ≤ p.ring.head.bytes) {cursor : Int}
    (hf : p.schema.fragment? cursor = some f) (hdepth : openDepth f < p.producer.starts.size)
    (hopens : Opens f (openDepth f) (p.glance seen) q) (hordered : q.Ordered) :
    q.Filling f p.producer.head.words p.producer.head.bytes := by
  obtain ⟨-, htail, -, -⟩ := hopens.ring_ends
  have hlow := Nat.le_trans h.released.1
    (Nat.le_trans h.prepared (Nat.le_trans h.unread h.published.1))
  refine ⟨hordered, ?_, ?_, ?_, hopens.pending, ?_, ?_, ?_⟩
  · rw [hopens.starts, ← Schema.openDepth_eq hs hf]
    exact Array.getElem?_setIfInBounds_self_of_lt hdepth
  · rw [htail]
    exact hlow
  · rw [hopens.head]
    rfl
  · rw [hopens.byteBase, hopens.head]
    split
    · exact Nat.le_refl _
    · exact hcounts.byteBase
  · rw [htail]
    exact Nat.le_trans hreleased h.published.2
  · rw [hopens.head]
    exact Nat.le_refl _

variable (hs : s.Measured) {cursor : Int} (hf : s.fragment? cursor = some f)

include hs hf

theorem starts_of_field (h : p.Filling f start first) {shape : Shape}
    (hfield : s.FieldAt f loc shape) : p.producer.starts[loc.depth]? = some start := by
  rw [(hs.fieldAt hf hfield).1]
  exact h.starts

theorem puts (h : p.Filling f start first) (hfield : s.FieldAt f loc value.shape) :
    (∃ q, p.write loc value = (.ok (), q) ∧ Puts (start + loc.offset) value p q) ∨
      ∃ fault seen, p.write loc value = (.error fault, p.glance seen) := by
  have hlast := (hs.fieldAt hf hfield).2
  have hlow := h.low
  have hhigh := h.high
  exact write_puts loc value h.ordered (h.starts_of_field hs hf hfield) (by omega) (by omega)
    (Nat.le_trans h.released h.gathered) h.byteBase

theorem write (h : p.Filling f start first) (hfield : s.FieldAt f loc value.shape) :
    (p.write loc value).2.Filling f start first := by
  have hordered := ordered_write h.ordered loc value
  rcases h.puts hs hf hfield with ⟨q, hwrite, hputs⟩ | ⟨fault, seen, hwrite⟩ <;>
    rw [hwrite] at hordered ⊢
  · have hahead : p.producer.head.bytes ≤ q.producer.head.bytes := by
      rw [hputs.head]
      exact Nat.le_add_right _ _
    refine ⟨hordered, ?_, ?_, ?_, ?_, ?_, ?_, Nat.le_trans h.gathered hahead⟩
    · rw [hputs.starts]
      exact h.starts
    · rw [hputs.ring_tail]
      exact h.low
    · rw [hputs.head]
      exact h.high
    · rw [hputs.pending]
      exact h.pending
    · rw [hputs.byteBase]
      exact Nat.le_trans h.byteBase hahead
    · rw [hputs.ring_tail]
      exact h.released
  · exact ⟨hordered, h.starts, h.low, h.high, h.pending, h.byteBase, h.released, h.gathered⟩

theorem fill {fields : List (Locator × Value)} (h : p.Filling f start first)
    (hfields : ∀ field ∈ fields, s.FieldAt f field.1 field.2.shape) :
    (p.fill fields).Filling f start first := by
  induction fields generalizing p with
  | nil => exact h
  | cons field rest ih =>
    obtain ⟨hfield, hrest⟩ := List.forall_mem_cons.1 hfields
    exact ih (h.write hs hf hfield) hrest

theorem byteBase_fill {fields : List (Locator × Value)} (h : p.Filling f start first)
    (hfields : ∀ field ∈ fields, s.FieldAt f field.1 field.2.shape) :
    (p.fill fields).producer.byteBase = p.producer.byteBase := by
  induction fields generalizing p with
  | nil => rfl
  | cons field rest ih =>
    obtain ⟨hfield, hrest⟩ := List.forall_mem_cons.1 hfields
    refine (ih (h.write hs hf hfield) hrest).trans ?_
    rcases h.puts hs hf hfield with ⟨q, hwrite, hputs⟩ | ⟨fault, seen, hwrite⟩ <;> rw [hwrite]
    · exact hputs.byteBase
    · rfl

/-- What lies in a field is not disturbed by a write to another. -/
theorem stores_write (h : p.Filling f start first) {other : Locator}
    (hfield : s.FieldAt f other value.shape) (hne : other ≠ loc) {kept : Value}
    (hkept : p.StoresField s f start first loc kept) :
    (p.write other value).2.StoresField s f start first loc kept := by
  obtain ⟨hat, hstores⟩ := hkept
  have hapart := hs.fieldsAt_apart hf hat hfield hne
  have hlast := (hs.fieldAt hf hat).2
  have hlow := h.low
  have hhigh := h.high
  refine ⟨hat, ?_⟩
  rcases h.puts hs hf hfield with ⟨q, hwrite, hputs⟩ | ⟨fault, seen, hwrite⟩ <;> rw [hwrite]
  · rw [hputs.byteBase, hputs.head]
    refine (hstores.of_keeps (hputs.keeps _ _ ⟨?_, h.released⟩ ⟨?_, Nat.le_refl _⟩ ?_)).mono
      (Nat.le_refl _) (Nat.le_add_right _ _)
    · exact Nat.le_trans hlow (Nat.le_add_right _ _)
    · simp only
      omega
    · simp only
      omega
  · exact hstores

theorem stores_taken (h : p.Filling f start first) (hfield : s.FieldAt f loc value.shape)
    (htaken : (p.write loc value).1.isOk = true) :
    (p.write loc value).2.StoresField s f start first loc value := by
  refine ⟨hfield, ?_⟩
  rcases h.puts hs hf hfield with ⟨q, hwrite, hputs⟩ | ⟨fault, seen, hwrite⟩
  · rw [hwrite, hputs.byteBase]
    exact hputs.stores.mono h.gathered (Nat.le_refl _)
  · rw [hwrite] at htaken
    cases htaken

/-- By induction over the writes: a field holds the last value that it took, or what it held before
if it took none. -/
theorem stores_fill {fields : List (Locator × Value)} (h : p.Filling f start first)
    (hfields : ∀ field ∈ fields, s.FieldAt f field.1 field.2.shape) {held : Option Value}
    (hheld : ∀ value, held = some value → p.StoresField s f start first loc value) :
    ∀ value, (latest loc (p.taken fields)).or held = some value →
      (p.fill fields).StoresField s f start first loc value := by
  induction fields generalizing p held with
  | nil => exact hheld
  | cons field rest ih =>
    obtain ⟨other, offered⟩ := field
    obtain ⟨hfield, hrest⟩ := List.forall_mem_cons.1 hfields
    have hnext := h.write hs hf hfield
    unfold Pipe.taken
    by_cases hsame : other = loc
    · subst hsame
      cases htaken : (p.write other offered).1.isOk with
      | true =>
        simp only [↓reduceIte, latest, Option.or_assoc]
        exact ih hnext hrest fun value hvalue => by
          cases hvalue
          exact h.stores_taken hs hf hfield htaken
      | false =>
        rcases h.puts hs hf hfield with ⟨q, hwrite, -⟩ | ⟨fault, seen, hwrite⟩
        · rw [hwrite] at htaken
          cases htaken
        · refine ih hnext hrest fun value hvalue => ?_
          rw [hwrite]
          exact hheld value hvalue
    · have hlatest : ∀ taken : List (Locator × Value),
          latest loc (if (p.write other offered).1.isOk then (other, offered) :: taken else taken) =
            latest loc taken := by
        intro taken
        split
        · rw [latest, if_neg hsame, Option.or_none]
        · rfl
      rw [hlatest]
      exact ih hnext hrest fun value hvalue =>
        h.stores_write hs hf hfield hsame (hheld value hvalue)

theorem word_fill {fields : List (Locator × Value)} (h : p.Filling f start first)
    (hfields : ∀ field ∈ fields, s.FieldAt f field.1 field.2.shape) {i : Nat}
    (hapart : ∀ k, s.base f ≤ k → k + 1 < f.words →
      p.ring.words.slot (start + k) ≠ p.ring.words.slot i) :
    (p.fill fields).ring.word i = p.ring.word i := by
  induction fields generalizing p with
  | nil => rfl
  | cons field rest ih =>
    obtain ⟨hfield, hrest⟩ := List.forall_mem_cons.1 hfields
    have hbase := hs.base_le_offset hf hfield
    have hlast := (hs.fieldAt hf hfield).2
    have hsize : (p.write field.1 field.2).2.ring.words.capacity = p.ring.words.capacity :=
      congrArg Mark.words (p.goesOn_write field.1 field.2).capacity
    refine (ih (h.write hs hf hfield) hrest fun k hlow hhigh => ?_).trans ?_
    · rw [Channel.slot_congr hsize, Channel.slot_congr hsize]
      exact hapart k hlow hhigh
    · refine word_write_of_slot_ne (h.starts_of_field hs hf hfield) fun k hk => ?_
      rw [Nat.add_assoc]
      exact hapart (field.1.offset + k) (by omega) (by omega)

theorem keepsAround_fill {fields : List (Locator × Value)} (h : p.Filling f start first)
    (hfields : ∀ field ∈ fields, s.FieldAt f field.1 field.2.shape) :
    p.ring.KeepsAround (p.fill fields).ring s f start := by
  have hroom : f.words ≤ p.ring.words.capacity := h.beginsAt.room
  have hbase := hs.base_lt_words hf
  refine ⟨fun i hi => ?_, ?_, fun i hout => ?_⟩ <;>
    refine h.word_fill hs hf hfields fun k hlow hhigh => ?_
  · exact p.ring.words.slot_ne_of_ne start (by omega) (by omega) (by omega) (by omega) (by omega)
  · exact p.ring.words.slot_ne_of_ne start (by omega) (by omega) (by omega) (by omega) (by omega)
  · exact hout k (by omega)

theorem fixed_taken {fields : List (Locator × Value)} (h : p.Filling f start first)
    (hfields : ∀ field ∈ fields, s.FieldAt f field.1 field.2.shape) :
    (p.taken fields).filter (·.2.shape ≠ .bytes) = fields.filter (·.2.shape ≠ .bytes) := by
  induction fields generalizing p with
  | nil => rfl
  | cons field rest ih =>
    obtain ⟨hfield, hrest⟩ := List.forall_mem_cons.1 hfields
    have hmore := ih (h.write hs hf hfield) hrest
    unfold Pipe.taken
    by_cases hshape : field.2.shape = .bytes
    · rw [List.filter_cons_of_neg (by simpa using hshape), ← hmore]
      split
      · exact List.filter_cons_of_neg (by simpa using hshape)
      · rfl
    · rw [if_pos (isOk_write_of_fixed (h.starts_of_field hs hf hfield) hshape),
        List.filter_cons_of_pos (by simpa using hshape), hmore,
        List.filter_cons_of_pos (by simpa using hshape)]

/-- The bytes that are taken fit the channel, so the trailer counts them exactly. -/
theorem trailer_publish_fill {fields : List (Locator × Value)} (h : p.Filling f start first)
    (hfields : ∀ field ∈ fields, s.FieldAt f field.1 field.2.shape)
    (hfirst : p.producer.head.bytes = first) (hcapacity : p.ring.capacity.bytes ≤ 0x40000000) :
    ((p.fill fields).publish.ring.word (start + f.words - 1)).toInt = p.filled fields := by
  have hlast := h.fill hs hf hfields
  have hroom := hlast.ordered.room.2
  have hreleased := hlast.released
  have hhead := (p.head_fill fields).1
  have hsame := congrArg Mark.bytes (p.goesOn_fill fields).capacity
  rw [Mark.bytes_add] at hroom
  rw [word_publish_fill h.pending, hfirst, Nat.add_sub_cancel_left, toInt_ofNat (by omega)]

end Filling

theorem StoresField.readsAs (h : p.StoresField s f start first loc value) {c : Consumer}
    (hstart : c.starts[loc.depth]? = some start) (hbase : c.byteBase = p.producer.byteBase) :
    ({ p with consumer := c } : Pipe).ReadsAs loc value := by
  have hposition : ({ p with consumer := c } : Pipe).consumer.position? loc =
      some (start + loc.offset) := by
    rw [Consumer.position?, hstart]
    rfl
  have hvalue := h.2.value
  rw [← hbase] at hvalue
  have hspan : ∀ data, value = .bytes data →
      p.ring.bytes.read (c.byteBase + (p.ring.spanAt (start + loc.offset)).1)
        (p.ring.spanAt (start + loc.offset)).2 = data := by
    rintro data rfl
    have hread := Value.bytes.inj hvalue
    rwa [Ring.spanBytes, Nat.min_self] at hread
  refine ⟨?_, fun data hdata => ?_, fun data hdata limit => ?_, fun data hdata => ?_⟩
  · rw [readValue, atField, hposition]
    exact congrArg Except.ok hvalue
  · rw [readLength, atField, hposition, ← hspan data hdata, Channel.length_read]
  · rw [readBytes, atField, hposition, ← hspan data hdata, ← Channel.read_min]
    rfl
  · rw [readText, atField, hposition, ← hspan data hdata]
    simp only [Ring.spanBytes, Nat.min_self]

end

/-- A fragment that was just opened is filled by any writes to its fields. Writes that are not both
of byte strings may change places if they are to different fields. Each field then reads as the
last value that it took, and only byte strings can be refused. The id, the words in front of the
fields, the trailer and all words outside the fragment are as they were. Once the fragment is
published, its trailer counts the bytes that were taken. -/
theorem fields_independent {schema : Schema} {config : Config} {p q : Pipe} {cursor : Int}
    {bytes : Nat} {f : Fragment} {fields : List (Locator × Value)}
    (h : Reachable schema config p) (hs : schema.Accepted)
    (hreleased : p.ring.tail.bytes ≤ p.ring.head.bytes) (hf : schema.fragment? cursor = some f)
    (hopen : p.openAt cursor bytes = (.ok true, q))
    (hfields : ∀ field ∈ fields, schema.FieldAt f field.1 field.2.shape) :
    (∀ others, Interleaves fields others → q.fill others = q.fill fields) ∧
      (∀ loc value, latest loc (q.taken fields) = some value → ∀ c : Consumer,
        c.starts[loc.depth]? = some p.producer.head.words →
          c.byteBase = q.producer.byteBase →
            ({ q.fill fields with consumer := c } : Pipe).ReadsAs loc value) ∧
      (q.taken fields).filter (·.2.shape ≠ .bytes) = fields.filter (·.2.shape ≠ .bytes) ∧
      (f.startsMessage = true → (q.fill fields).ring.word
        (p.producer.head.words + schema.idDistance) = Int32.ofNat f.start) ∧
      q.ring.KeepsAround (q.fill fields).ring schema f p.producer.head.words ∧
      ((q.fill fields).publish.ring.word (p.producer.head.words + f.words - 1)).toInt =
        q.filled fields := by
  have hnext : Reachable schema config q := by
    have hact := h.act (.run (.openAt cursor bytes))
    rw [act, run, hopen] at hact
    exact hact
  have hcapacity : q.ring.capacity.bytes ≤ 0x40000000 := by
    rw [hnext.capacity_eq hs]
    exact (Config.capacity_le h.validate).2
  have hmeasured := h.measured hs
  obtain ⟨rfl, -⟩ := h.follows hs.compiled
  obtain ⟨hdepth, seen, hopens⟩ := opens_of_openAt hopen hf
  have hfilling := Filling.of_opens hs.laidOut (h.ordered hs) (h.counts hs) hreleased hf hdepth
    hopens (hnext.ordered hs)
  have haround := hfilling.keepsAround_fill hmeasured hf hfields
  refine ⟨fun others hsame => ?_, fun loc value hlatest c hstart hbase => ?_,
    hfilling.fixed_taken hmeasured hf hfields, fun hstarts => ?_, haround, ?_⟩
  · exact hfilling.beginsAt.fill_interleaved hmeasured hf hfields hsame
  · have hnone : ∀ value, none = some value →
        q.StoresField p.schema f p.producer.head.words p.producer.head.bytes loc value :=
      fun value hvalue => absurd hvalue.symm (Option.some_ne_none value)
    have hstores := hfilling.stores_fill hmeasured hf hfields hnone value (by rw [hlatest]; rfl)
    exact hstores.readsAs hstart
      (hbase.trans (hfilling.byteBase_fill hmeasured hf hfields).symm)
  · have hfront : p.schema.idDistance < p.schema.base f := by
      rw [Schema.base, if_pos hstarts]
      exact Nat.lt_succ_self _
    rw [haround.front _ hfront, hopens.ring, if_pos hstarts]
    exact Ring.word_setWord_self _ _ _
  · have hfirst : q.producer.head.bytes = p.producer.head.bytes := by
      rw [hopens.head]
      rfl
    exact hfilling.trailer_publish_fill hmeasured hf hfields hfirst hcapacity

/-- At the end of the ring a level is opened whose words go on at its beginning. Its price and its
text are written twice, in two orders. -/
theorem fields_independent_book :
    let fields : List (Locator × Value) := [(⟨1, 0⟩, .decimal 2 (-5)), (⟨1, 3⟩, .bytes [72]),
      (⟨1, 3⟩, .bytes [195, 169]), (⟨1, 0⟩, .decimal (-1) 7)]
    let others : List (Locator × Value) := [(⟨1, 3⟩, .bytes [72]), (⟨1, 0⟩, .decimal 2 (-5)),
      (⟨1, 0⟩, .decimal (-1) 7), (⟨1, 3⟩, .bytes [195, 169])]
    ∃ p q, Reachable Schema.book ⟨⟨4, 3⟩, 1⟩ p ∧ p.openAt 3 0 = (.ok true, q) ∧
      p.producer.head.words = 12 ∧ q.fill others = q.fill fields ∧
      (∀ c : Consumer, c.starts[1]? = some 12 → c.byteBase = q.producer.byteBase →
        ({ q.fill fields with consumer := c } : Pipe).ReadsAs ⟨1, 0⟩ (.decimal (-1) 7) ∧
        ({ q.fill fields with consumer := c } : Pipe).ReadsAs ⟨1, 3⟩ (.bytes [195, 169])) ∧
      ((q.fill fields).publish.ring.word 17).toInt = 3 := by
  intro fields others
  have haccepted : Schema.book.Accepted :=
    ⟨Schema.compiled_book, by decide, by decide, by decide⟩
  have hprice : Schema.book.FieldAt ⟨3, 6, 4, 1, false⟩ ⟨1, 0⟩ .decimal :=
    ⟨4, _, by decide, by decide, rfl, by decide, by decide⟩
  have htext : Schema.book.FieldAt ⟨3, 6, 4, 1, false⟩ ⟨1, 3⟩ .bytes :=
    ⟨5, _, by decide, by decide, rfl, by decide, by decide⟩
  have hfields : ∀ field ∈ fields,
      Schema.book.FieldAt ⟨3, 6, 4, 1, false⟩ field.1 field.2.shape := by
    simp only [fields, List.forall_mem_cons]
    exact ⟨hprice, htext, htext, hprice, nofun⟩
  have hsame : Interleaves fields others := by
    refine ⟨fun loc => ?_, rfl⟩
    by_cases hfirst : (⟨1, 0⟩ : Locator) = loc
    · subst hfirst
      rfl
    · by_cases hsecond : (⟨1, 3⟩ : Locator) = loc
      · subst hsecond
        rfl
      · simp [fields, others, hfirst, hsecond]
  have hbuilt : Reachable Schema.book ⟨⟨4, 3⟩, 1⟩ (fresh Schema.book ⟨⟨4, 3⟩, 1⟩) :=
    .built (build_eq_fresh (by decide +kernel))
  obtain ⟨p, hrun, hreleased, hhead, hdone, hlatest, hlatestText, hfilled⟩ :
      ∃ p, Reachable Schema.book ⟨⟨4, 3⟩, 1⟩ p ∧ p.ring.tail.bytes ≤ p.ring.head.bytes ∧
        p.producer.head.words = 12 ∧ (p.openAt 3 0).1.toOption = some true ∧
        latest ⟨1, 0⟩ ((p.openAt 3 0).2.taken fields) = some (.decimal (-1) 7) ∧
        latest ⟨1, 3⟩ ((p.openAt 3 0).2.taken fields) = some (.bytes [195, 169]) ∧
        (p.openAt 3 0).2.filled fields = 3 :=
    ⟨_, (((hbuilt.act (.run (.claim 12))).act (.run .publish)).act (.run (.skip 12))).act
      (.run .releaseNow), by decide +kernel⟩
  have hopen := eq_ok_of_toOption hdone
  obtain ⟨horder, hreads, -, -, -, htrailer⟩ :=
    fields_independent hrun haccepted hreleased (f := ⟨3, 6, 4, 1, false⟩) (by decide) hopen hfields
  rw [hhead] at hreads htrailer
  refine ⟨p, _, hrun, hopen, hhead, horder others hsame, fun c hstart hbase => ?_, ?_⟩
  · exact ⟨hreads _ _ hlatest c hstart hbase, hreads _ _ hlatestText c hstart hbase⟩
  · exact htrailer.trans (congrArg Int.ofNat hfilled)

end Pipe

end FragmentPipe
