import FragmentPipe.Proofs.Stream.Marks
import FragmentPipe.Proofs.Writer.Opened
import FragmentPipe.Proofs.Writer.Values

set_option autoImplicit false

namespace FragmentPipe

/-- Places for the pieces of a stream: each piece ends before the later ones begin. -/
structure Row (s : Schema) (l : List Piece) (place : Nat → Mark) : Prop where
  mono : ∀ j k, j ≤ k → place j ≤ place k
  apart : ∀ j k piece, l[j]? = some piece → j < k →
    (place j + piece.extent s).words ≤ (place k).words

/-- What is known of the piece of a number in a ring that is filled with so many bytes, and whether
the piece has its trailer. -/
abbrev Account := Nat → Nat → Prop → Ring → Piece → Prop

/-- An account concerns no more than the words of its piece, and all that a fragment needs to be
complete is its trailer. -/
structure Account.Local (a : Account) (s : Schema) (place : Nat → Mark)
    (bytes : Nat → Piece → Nat) : Prop where
  imp : ∀ {k high high' : Nat} {complete complete' : Prop} {r : Ring} {piece : Piece},
    a k high complete r piece → high ≤ high' → (complete' → complete) → a k high' complete' r piece
  keeps : ∀ {k high : Nat} {complete : Prop} {r r' : Ring} {piece : Piece},
    a k high complete r piece → r.Keeps r' (place k) ⟨(place k + piece.extent s).words, high⟩ →
      a k high complete r' piece
  sealed : ∀ {k high index : Nat} {complete : Prop} {r r' : Ring} {m : MessageData}
      {d : FragmentData} {f : Fragment},
    a k high complete r (.fragment m index d) → s.fragment? d.cursor = some f →
      r.Keeps r' (place k) ⟨(place k).words + f.words - 1, high⟩ →
      r'.word ((place k).words + f.words - 1) = Int32.ofNat (bytes k (.fragment m index d)) →
        a k high True r' (.fragment m index d)

namespace Pipe

/-- The pieces that were opened lie in the ring, each at its place, from the first that is still
needed on. Only the piece opened last may still wait for its trailer. -/
structure Lodges (s : Schema) (l : List Piece) (place : Nat → Mark) (account : Account) (p : Pipe)
    (first opened : Nat) : Prop where
  schema : p.schema = s
  capacity : p.ring.capacity.bytes ≤ 0x40000000
  first_le : first ≤ opened
  opened_le : opened ≤ l.length
  tail : p.ring.tail ≤ place first
  ends : ∀ k piece, l[k]? = some piece → k < opened →
    (place k + piece.extent s).words ≤ p.producer.head.words
  waits : ∀ last, p.producer.pending = some last → ∃ k m index d f, opened = k + 1 ∧
    l[k]? = some (.fragment m index d) ∧ s.fragment? d.cursor = some f ∧
      last = ⟨(place k).words + f.words - 1, (place k).bytes⟩
  spans : ∀ k piece, opened = k + 1 → l[k]? = some piece →
    p.producer.byteBase = (place (k - piece.index)).bytes
  accounts : ∀ k piece, l[k]? = some piece → k < opened → first ≤ k →
    account k p.producer.head.bytes (k + 1 < opened ∨ p.producer.pending = none) p.ring piece

structure Beyond (p q : Pipe) : Prop where
  schema : q.schema = p.schema
  capacity : q.ring.capacity = p.ring.capacity
  tail : q.ring.tail = p.ring.tail
  head : p.producer.head ≤ q.producer.head
  keeps : p.ring.Keeps q.ring p.ring.tail p.producer.head

section Effects

variable {s : Schema} {p q : Pipe} {f : Fragment}

theorem Opens.beyond {depth : Nat} {cursor : Int} (hs : s.Measured) (hschema : p.schema = s)
    (hf : s.fragment? cursor = some f) (hopens : Opens f depth p q)
    (hpending : p.producer.pending = none)
    (hroom : p.producer.head.words + f.words ≤ p.ring.tail.words + p.ring.capacity.words) :
    p.Beyond q := by
  obtain ⟨-, htail, -, hcapacity⟩ := hopens.ring_ends
  refine ⟨hopens.schema, hcapacity, htail, ?_, (hopens.stores hs hschema hf hpending hroom).1⟩
  rw [hopens.head]
  exact Mark.le_add _ _

theorem Marks.beyond {seen : Mark} (hs : s.Accepted) (hschema : p.schema = s)
    (hmarks : Marks seen p q) (hpending : p.producer.pending = none)
    (htail : p.ring.tail.words ≤ p.producer.head.words)
    (hroom : p.producer.head.words + (s.idDistance + 2) ≤
      p.ring.tail.words + p.ring.capacity.words) : p.Beyond q := by
  refine ⟨hmarks.schema, hmarks.capacity, hmarks.tail, ?_,
    (hmarks.stores hs hschema hpending htail hroom).1⟩
  rw [hmarks.head]
  exact Mark.le_add _ _

theorem opens_of_ordered (hordered : p.Ordered) {cursor : Int} {bytes : Nat}
    (hopen : p.openAt cursor bytes = (.ok true, q)) :
    ∃ f seen, p.schema.fragment? cursor = some f ∧
      (seen = p.producer.seenTail ∨ seen = p.ring.tail) ∧
      openDepth f < p.producer.starts.size ∧
      Opens f (openDepth f) (p.glance seen).storeTrailer q ∧
      p.producer.head.words + f.words ≤ p.ring.tail.words + p.ring.capacity.words := by
  rcases p.openAt_cases cursor bytes with
    ⟨-, hcase⟩ | ⟨f, hf, ⟨seen, hseen, hroom, ⟨hdepth, hcase⟩ | ⟨-, hcase⟩⟩ | ⟨-, hcase⟩⟩ <;>
    rw [hcase] at hopen <;> cases hopen
  have hfree := (hordered.fits hseen hroom).1
  simp only [Mark.words_add] at hfree
  exact ⟨f, seen, hf, hseen, hdepth, (p.glance seen).opens_storeTrailer f (openDepth f), hfree⟩

theorem marks_of_ordered (hs : p.schema.Measured) (hordered : p.Ordered)
    (hmarker : p.publishMarker = (true, q)) :
    ∃ seen, Marks seen p.storeTrailer q ∧
      p.producer.head.words + (p.schema.idDistance + 2) ≤
        p.ring.tail.words + p.ring.capacity.words := by
  rcases p.publishMarker_cases with ⟨seen, hseen, hroom, hcase⟩ | ⟨-, hcase⟩ <;>
    rw [hcase] at hmarker <;> cases hmarker
  have hfree := (hordered.fits hseen hroom).1
  simp only [Mark.words_add, Mark.ofWords, hs.marker_eq] at hfree
  exact ⟨seen, p.marks_storeTrailer seen, hfree⟩

end Effects

section Steps

variable {s : Schema} {l : List Piece} {place place' : Nat → Mark} {account account' : Account}
  {bytes : Nat → Piece → Nat} {p q : Pipe} {first opened : Nat} {piece : Piece}

theorem Lodges.exists_piece (h : p.Lodges s l place account first opened) {k : Nat}
    (hk : k < opened) : ∃ piece, l[k]? = some piece :=
  ⟨_, List.getElem?_eq_getElem (Nat.lt_of_lt_of_le hk h.opened_le)⟩

theorem lodges_built {config : Config} (h : build s config = .ok p) (l : List Piece)
    (place : Nat → Mark) (account : Account) : p.Lodges s l place account 0 0 := by
  have hbytes : p.ring.capacity.bytes ≤ 0x40000000 := by
    rw [capacity_of_build h]
    exact (Config.capacity_le (validate_of_build h)).2
  rw [eq_fresh_of_build h] at hbytes ⊢
  exact ⟨rfl, hbytes, Nat.le_refl _, Nat.zero_le _, ⟨Nat.zero_le _, Nat.zero_le _⟩,
    fun k _ _ hk => (nomatch hk), nofun, fun k _ hk => (nomatch hk), fun k _ _ hk => (nomatch hk)⟩

theorem Lodges.tail_le (hrow : Row s l place) (h : p.Lodges s l place account first opened)
    {k : Nat} (hk : first ≤ k) : p.ring.tail ≤ place k :=
  Mark.le_trans h.tail (hrow.mono first k hk)

/-- A ring that is the same in front of the producer's head says the same of each piece. -/
theorem Lodges.accounts_of_keeps (hrow : Row s l place) (hlocal : account.Local s place bytes)
    (h : p.Lodges s l place account first opened) {r : Ring}
    (hkeeps : p.ring.Keeps r p.ring.tail p.producer.head) {k : Nat} (hpiece : l[k]? = some piece)
    (hk : k < opened) (hfirst : first ≤ k) :
    account k p.producer.head.bytes (k + 1 < opened ∨ p.producer.pending = none) r piece :=
  hlocal.keeps (h.accounts k piece hpiece hk hfirst)
    (hkeeps.mono (h.tail_le hrow hfirst) ⟨h.ends k piece hpiece hk, Nat.le_refl _⟩)

theorem Lodges.glance (h : p.Lodges s l place account first opened) (seen : Mark) :
    (p.glance seen).Lodges s l place account first opened :=
  { h with }

/-- Nothing is opened, and nothing is stored but behind the producer's head. -/
theorem Lodges.stays (hrow : Row s l place) (hlocal : account.Local s place bytes)
    (h : p.Lodges s l place account first opened) (hbeyond : p.Beyond q)
    (hpending : q.producer.pending = p.producer.pending)
    (hbase : q.producer.byteBase = p.producer.byteBase) :
    q.Lodges s l place account first opened where
  schema := hbeyond.schema.trans h.schema
  capacity := hbeyond.capacity ▸ h.capacity
  first_le := h.first_le
  opened_le := h.opened_le
  tail := hbeyond.tail ▸ h.tail
  ends := fun k piece hpiece hk => Nat.le_trans (h.ends k piece hpiece hk) hbeyond.head.1
  waits := fun last hlast => h.waits last (hpending.symm.trans hlast)
  spans := fun k piece hk hpiece => hbase.trans (h.spans k piece hk hpiece)
  accounts := fun k piece hpiece hk hfirst => by
    rw [hpending]
    exact hlocal.imp (h.accounts_of_keeps hrow hlocal hbeyond.keeps hpiece hk hfirst)
      hbeyond.head.2 id

/-- The trailer that waits is stored, and every piece is complete. -/
theorem Lodges.storeTrailer (hs : s.Measured) (hrow : Row s l place)
    (hlocal : account.Local s place bytes) (hordered : p.Ordered)
    (h : p.Lodges s l place account first opened)
    (hbytes : ∀ k piece, opened = k + 1 → l[k]? = some piece →
      p.producer.head.bytes - (place k).bytes = bytes k piece) :
    p.storeTrailer.Lodges s l place account first opened := by
  cases hpending : p.producer.pending with
  | none =>
    rw [storeTrailer_of_none hpending]
    exact h
  | some last =>
    obtain ⟨k, m, index, d, f, hopened, hpiece, hf, rfl⟩ := h.waits last hpending
    have hbase := hs.base_lt_words hf
    have htrailer := word_storeTrailer hpending
    simp only [hbytes k _ hopened hpiece] at htrailer
    have hkeeps := hordered.keeps_storeTrailer hpending
    refine ⟨by simpa using h.schema, by simpa using h.capacity, h.first_le, h.opened_le,
      by simpa using h.tail, by simpa using h.ends, by simp, by simpa using h.spans,
      fun j other hj hlt hfirst => ?_⟩
    have haccount := h.accounts j other hj hlt hfirst
    have hbegins := h.tail_le hrow hfirst
    rw [head_storeTrailer]
    by_cases hlast : j = k
    · subst hlast
      rw [hpiece] at hj
      cases hj
      exact hlocal.imp (hlocal.sealed haccount hf (hkeeps.mono hbegins (Mark.le_refl _)) htrailer)
        (Nat.le_refl _) fun _ => trivial
    · -- The trailer lies in the last piece, behind the end of the others.
      have hend := hrow.apart j k other hj (by omega)
      refine hlocal.imp (hlocal.keeps haccount (hkeeps.mono hbegins ⟨?_, Nat.le_refl _⟩))
        (Nat.le_refl _) fun _ => .inl (by omega)
      simp only
      omega

theorem Lodges.publish (hs : s.Measured) (hrow : Row s l place)
    (hlocal : account.Local s place bytes) (hordered : p.Ordered)
    (h : p.Lodges s l place account first opened)
    (hbytes : ∀ k piece, opened = k + 1 → l[k]? = some piece →
      p.producer.head.bytes - (place k).bytes = bytes k piece) :
    p.publish.Lodges s l place account first opened :=
  (h.storeTrailer hs hrow hlocal hordered hbytes).stays hrow hlocal
    ⟨rfl, rfl, rfl, Mark.le_refl _, .of_eq rfl rfl⟩ rfl rfl

/-- A piece comes to lie behind those that are complete. -/
theorem Lodges.next (hrow : Row s l place) (hlocal : account.Local s place bytes)
    (h : p.Lodges s l place account first opened) (hpending : p.producer.pending = none)
    (hbeyond : p.Beyond q) (hnext : l[opened]? = some piece)
    (hplace : ∀ k, k ≤ opened → place' k = place k)
    (haccount : ∀ k, k < opened → account' k = account k)
    (hend : (place opened + piece.extent s).words ≤ q.producer.head.words)
    (hwaits : ∀ last, q.producer.pending = some last → ∃ m index d f,
      piece = .fragment m index d ∧ s.fragment? d.cursor = some f ∧
        last = ⟨(place opened).words + f.words - 1, (place opened).bytes⟩)
    (hbase : q.producer.byteBase = (place (opened - piece.index)).bytes)
    (hnew : ∀ complete : Prop, (complete → q.producer.pending = none) →
      account' opened q.producer.head.bytes complete q.ring piece) :
    q.Lodges s l place' account' first (opened + 1) := by
  refine ⟨hbeyond.schema.trans h.schema, hbeyond.capacity ▸ h.capacity,
    Nat.le_succ_of_le h.first_le,
    (List.getElem?_eq_some_iff.1 hnext).1, ?_, fun k other hpiece hk => ?_, fun last hlast => ?_,
    fun k other hk hpiece => ?_, fun k other hpiece hk hfirst => ?_⟩
  · rw [hplace first h.first_le, hbeyond.tail]
    exact h.tail
  · rw [hplace k (Nat.le_of_lt_succ hk)]
    by_cases hlast : k = opened
    · subst hlast
      rw [hnext] at hpiece
      cases hpiece
      exact hend
    · exact Nat.le_trans (h.ends k other hpiece (by omega)) hbeyond.head.1
  · obtain ⟨m, index, d, f, rfl, hf, rfl⟩ := hwaits last hlast
    rw [← hplace opened (Nat.le_refl _)]
    exact ⟨opened, m, index, d, f, rfl, hnext, hf, rfl⟩
  · obtain rfl : opened = k := Nat.succ.inj hk
    rw [hnext] at hpiece
    cases hpiece
    rw [hplace _ (Nat.sub_le _ _)]
    exact hbase
  · by_cases hlast : k = opened
    · subst hlast
      rw [hnext] at hpiece
      cases hpiece
      exact hnew _ fun hcomplete => hcomplete.resolve_left (Nat.lt_irrefl _)
    · have hlt : k < opened := by omega
      rw [haccount k hlt]
      exact hlocal.imp (h.accounts_of_keeps hrow hlocal hbeyond.keeps hpiece hlt hfirst)
        hbeyond.head.2 fun _ => .inr hpending

theorem Lodges.puts {start : Nat} {value : Value} (h : p.Lodges s l place account first opened)
    (hputs : Puts start value p q) (hfirst : place' first = place first)
    (hplace : ∀ k, k < opened → place' k = place k)
    (haccounts : ∀ k piece, l[k]? = some piece → k < opened → first ≤ k →
      account' k q.producer.head.bytes (k + 1 < opened ∨ q.producer.pending = none) q.ring piece) :
    q.Lodges s l place' account' first opened := by
  refine ⟨hputs.schema.trans h.schema, hputs.capacity ▸ h.capacity, h.first_le, h.opened_le, ?_,
    fun k piece hpiece hk => ?_, fun last hlast => ?_, fun k piece hk hpiece => ?_, haccounts⟩
  · rw [hfirst, hputs.ring_tail]
    exact h.tail
  · rw [hplace k hk, hputs.head]
    exact h.ends k piece hpiece hk
  · obtain ⟨k, m, index, d, f, hk, hpiece, hf, rfl⟩ := h.waits last (hputs.pending.symm.trans hlast)
    rw [← hplace k (by omega)]
    exact ⟨k, m, index, d, f, hk, hpiece, hf, rfl⟩
  · rw [hplace _ (by omega), hputs.byteBase]
    exact h.spans k piece hk hpiece

theorem Lodges.of_consumer (hlocal : account.Local s place bytes)
    (h : p.Lodges s l place account first opened) {later : Nat} (hschema : q.schema = p.schema)
    (hproducer : q.producer = p.producer) {tail : Mark} (hring : q.ring = { p.ring with tail })
    (htail : tail ≤ place later) (hlater : first ≤ later) (hle : later ≤ opened) :
    q.Lodges s l place account later opened := by
  refine ⟨hschema.trans h.schema, ?_, hle, h.opened_le, ?_, ?_, ?_, ?_,
    fun k piece hpiece hk hfirst => ?_⟩
  · rw [hring]
    exact h.capacity
  · rw [hring]
    exact htail
  · rw [hproducer]
    exact h.ends
  · rw [hproducer]
    exact h.waits
  · rw [hproducer]
    exact h.spans
  · rw [hproducer, hring]
    exact hlocal.keeps (h.accounts k piece hpiece hk (Nat.le_trans hlater hfirst)) (.of_eq rfl rfl)

end Steps

section Stream

variable {s : Schema} {items : List StreamItem} {place place' : Nat → Mark}
  {account account' : Account} {bytes : Nat → Piece → Nat} {p q : Pipe} {first opened : Nat}

/-- The spans of a piece are counted from where its item begins. -/
theorem Lodges.base_next (hs : s.LaidOut) (hfits : StreamFits s items)
    (h : p.Lodges s (piecesOf items) place account first opened)
    (hhead : p.producer.head.bytes = (place opened).bytes) {piece : Piece}
    (hnext : (piecesOf items)[opened]? = some piece)
    (hbase : q.producer.byteBase =
      if piece.index = 0 then p.producer.head.bytes else p.producer.byteBase) :
    q.producer.byteBase = (place (opened - piece.index)).bytes := by
  rw [hbase]
  by_cases hbegins : piece.index = 0
  · rw [if_pos hbegins, hhead, hbegins, Nat.sub_zero]
  · rw [if_neg hbegins]
    cases hopened : opened with
    | zero =>
      rw [hopened] at hnext
      exact absurd (index_of_head hs hfits hnext) hbegins
    | succ k =>
      obtain ⟨before, hbefore⟩ := h.exists_piece (k := k) (by omega)
      rw [hopened] at hnext
      cases precedes_of_succ hs hfits hbefore hnext with
      | item _ hfirst => exact absurd hfirst hbegins
      | message m index d e =>
        rw [h.spans k _ hopened hbefore]
        simp only [Piece.index, Nat.add_sub_add_right]

/-- The next fragment of the stream is opened behind what is complete. -/
theorem Lodges.opens (hs : s.Measured) (hfits : StreamFits s items)
    (hrow : Row s (piecesOf items) place) (hlocal : account.Local s place bytes)
    (h : p.Lodges s (piecesOf items) place account first opened)
    (hpending : p.producer.pending = none) (hhead : p.producer.head = place opened)
    {m : MessageData} {index : Nat} {d : FragmentData} {f : Fragment} {depth : Nat}
    (hnext : (piecesOf items)[opened]? = some (.fragment m index d))
    (hf : s.fragment? d.cursor = some f) (hopens : Opens f depth p q)
    (hroom : p.producer.head.words + f.words ≤ p.ring.tail.words + p.ring.capacity.words)
    (hplace : ∀ k, k ≤ opened → place' k = place k)
    (haccount : ∀ k, k < opened → account' k = account k)
    (hnew : (f.startsMessage = true →
        q.ring.word ((place opened).words + s.idDistance) = Int32.ofNat f.start) →
      ∀ complete : Prop, ¬ complete →
        account' opened q.producer.head.bytes complete q.ring (.fragment m index d)) :
    q.Lodges s (piecesOf items) place' account' first (opened + 1) := by
  obtain ⟨hitem, hmember⟩ := mem_of_piecesOf hnext
  obtain ⟨f', hf', -, -, hstarts⟩ := (hfits m hitem).begins hs.laidOut hmember
  rw [hf] at hf'
  cases hf'
  obtain ⟨-, hid⟩ := hopens.stores hs h.schema hf hpending hroom
  have hbase := h.base_next (q := q) hs.laidOut hfits (by rw [hhead]) hnext (by
    rw [hopens.byteBase, hstarts]
    by_cases hbegins : index = 0 <;> simp [Piece.index, hbegins])
  refine h.next hrow hlocal hpending (hopens.beyond hs h.schema hf hpending hroom) hnext hplace
    haccount ?_ (fun last hlast => ⟨m, index, d, f, rfl, hf, ?_⟩) hbase ?_
  · rw [hopens.head, hhead, Piece.extent, hf]
    exact Nat.le_refl _
  · rw [hopens.pending, hhead] at hlast
    exact (Option.some.inj hlast).symm
  · refine fun complete hcomplete => hnew (by rw [← hhead]; exact hid) complete fun hdone => ?_
    have hnone := hcomplete hdone
    rw [hopens.pending] at hnone
    cases hnone

theorem Lodges.marks (hs : s.Measured) (hfits : StreamFits s items)
    (hrow : Row s (piecesOf items) place) (hlocal : account.Local s place bytes)
    (h : p.Lodges s (piecesOf items) place account first opened)
    (hpending : p.producer.pending = none) (hhead : p.producer.head = place opened)
    (hnext : (piecesOf items)[opened]? = some .marker) {seen : Mark} (hmarks : Marks seen p q)
    (hroom : p.producer.head.words + (s.idDistance + 2) ≤
      p.ring.tail.words + p.ring.capacity.words)
    (hplace : ∀ k, k ≤ opened → place' k = place k)
    (haccount : ∀ k, k < opened → account' k = account k)
    (hnew : q.ring.word ((place opened).words + s.idDistance) = -1 →
      q.ring.word ((place opened).words + s.idDistance + 1) = 0 →
        ∀ complete : Prop, account' opened q.producer.head.bytes complete q.ring .marker) :
    q.Lodges s (piecesOf items) place' account' first (opened + 1) := by
  have htail : p.ring.tail.words ≤ p.producer.head.words := by
    rw [hhead]
    exact (h.tail_le hrow h.first_le).1
  obtain ⟨-, hid, htrailer⟩ := hmarks.stores hs.toAccepted h.schema hpending htail hroom
  rw [hhead] at hid htrailer
  have hbase := h.base_next (q := q) hs.laidOut hfits (by rw [hhead]) hnext
    (hmarks.byteBase.trans (if_pos rfl).symm)
  refine h.next hrow hlocal hpending
    (hmarks.beyond hs.toAccepted h.schema hpending htail hroom) hnext hplace haccount ?_
    (fun last hlast => ?_) hbase fun complete _ => hnew hid htrailer complete
  · rw [hmarks.head, hhead, h.schema, hs.marker_eq]
    exact Nat.le_refl _
  · rw [hmarks.pending] at hlast
    cases hlast

end Stream

end Pipe

end FragmentPipe
