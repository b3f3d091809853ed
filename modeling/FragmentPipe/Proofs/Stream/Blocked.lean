import FragmentPipe.Proofs.Stream.Drained

set_option autoImplicit false

/-!
# A ring without a piece to spare

A ring that holds no more pieces than a batch has can be drained and full at once. For a script
without brackets a run shows it: message after message is opened, written, published and read,
until the pieces that are not released fill the ring. Then the producer waits for room and the
consumer for something to read.
-/
namespace FragmentPipe

def Shape.blank : Shape → Value
  | .word => .word 0
  | .long => .long 0
  | .decimal => .decimal 0 0
  | .bytes => .bytes []

theorem Shape.shape_blank (shape : Shape) : shape.blank.shape = shape := by
  cases shape <;> rfl

theorem Shape.byteLength_blank (shape : Shape) : shape.blank.byteLength = 0 := by
  cases shape <;> rfl

namespace Schema

def blankFragment (s : Schema) : FragmentData where
  cursor := 0
  value := fun position =>
    ((s.entries[position]?.bind fun e => e.token.shape?).getD .word).blank

def blankMessage (s : Schema) : MessageData := ⟨0, [s.blankFragment]⟩

def blanks (s : Schema) (count : Nat) : List StreamItem :=
  List.replicate count (.message s.blankMessage)

section Blanks

variable {s : Schema} {count i : Nat}

theorem piecesOf_blanks (s : Schema) (count : Nat) :
    piecesOf (s.blanks count) =
      List.replicate count (.fragment s.blankMessage 0 s.blankFragment) := by
  unfold piecesOf blanks
  induction count with
  | zero => rfl
  | succ count ih =>
    rw [List.replicate_succ, List.flatMap_cons, ih]
    rfl

theorem getElem?_blanks (h : i < count) :
    (piecesOf (s.blanks count))[i]? = some (.fragment s.blankMessage 0 s.blankFragment) := by
  rw [piecesOf_blanks, List.getElem?_replicate, if_pos h]

theorem bytesAt_blankFragment (s : Schema) (positions : List Nat) :
    s.blankFragment.bytesAt positions = 0 := by
  induction positions with
  | nil => rfl
  | cons position rest ih =>
    rw [FragmentData.bytesAt, ih]
    exact Shape.byteLength_blank _

theorem markAt_blanks {f : Fragment} (hf : s.fragment? 0 = some f) (h : i ≤ count) :
    markAt s (piecesOf (s.blanks count)) i = ⟨i * f.words, 0⟩ := by
  induction i with
  | zero =>
    rw [markAt_zero, Nat.zero_mul]
    rfl
  | succ i ih =>
    obtain ⟨hwords, hbytes⟩ := markAt_fragment (getElem?_blanks h) hf
    rw [ih (Nat.le_of_succ_le h)] at hwords hbytes
    refine Mark.ext ?_ ?_
    · rw [hwords, Nat.succ_mul]
    · rw [hbytes, s.bytesAt_blankFragment]

theorem fits_blanks (hs : s.Accepted) (hsimple : s.isSimple = true) (count : Nat) :
    StreamFits s (s.blanks count) := by
  intro m hm
  cases List.eq_of_mem_replicate hm
  have hroles := role_of_isSimple hsimple
  obtain ⟨f, hf, hstarts⟩ := fragment?_zero hs.laidOut hs.compiled.size_pos
  obtain ⟨hstart, -⟩ := fragment?_eq_some hf
  refine ⟨?_, ⟨.flat s.tokens hroles, rfl, rfl⟩, fun d hd => ?_⟩
  · rw [startsMessage_of_fragment? hf, ← hstart] at hstarts
    exact hstarts
  · obtain rfl := List.mem_singleton.1 hd
    refine ⟨fun f position e shape _ _ _ he hshape => ?_, fun f last e _ hlast hlength => ?_⟩
    · show Value.shape (Shape.blank _) = shape
      rw [Shape.shape_blank, he, Option.bind_some, hshape]
      rfl
    · obtain ⟨found, he, heq⟩ := Option.map_eq_some_iff.1 hlast
      cases heq
      have hmem : e.token ∈ s.tokens :=
        List.mem_map_of_mem (List.mem_of_getElem? (by simpa using he))
      rw [Token.isLength_eq, hroles _ hmem] at hlength
      cases hlength

end Blanks

end Schema

namespace Pipe

/-- The states of the framed runs that go straight on: no operation is refused, and nothing is
released but with a complete batch. -/
inductive Straight (schema : Schema) (config : Config) (items : List StreamItem) :
    Pipe → Progress → Prop where
  | built {p : Pipe} (h : build schema config = .ok p) :
      Straight schema config items p ⟨0, [], 0, 0⟩
  | opens {p q : Pipe} {g : Progress} {m : MessageData} {index : Nat} {d : FragmentData}
      {f : Fragment} (h : Straight schema config items p g) (bytes : Nat)
      (hnext : (piecesOf items)[g.opened]? = some (.fragment m index d)) (hfilled : g.left = [])
      (hf : schema.fragment? d.cursor = some f) (hopen : p.openAt d.cursor bytes = (.ok true, q)) :
      Straight schema config items q { g with opened := g.opened + 1, left := schema.fieldsOf f }
  | writes {p q : Pipe} {g : Progress} {k : Nat} {m : MessageData} {index : Nat}
      {d : FragmentData} {loc : Locator} (h : Straight schema config items p g) (position : Nat)
      (hopened : g.opened = k + 1) (hpiece : (piecesOf items)[k]? = some (.fragment m index d))
      (hleft : position ∈ g.left) (hloc : schema.locator? position = some loc)
      (hwrite : p.write loc (d.value position) = (.ok (), q)) :
      Straight schema config items q { g with left := g.left.erase position }
  | publishes {p : Pipe} {g : Progress} (h : Straight schema config items p g)
      (hfilled : g.left = []) :
      Straight schema config items p.publish { g with published := g.opened }
  | reads {p q : Pipe} {g : Progress} (h : Straight schema config items p g)
      (hread : p.read = (.ok true, q)) :
      Straight schema config items q { g with read := g.read + 1 }

theorem Straight.framed {schema : Schema} {config : Config} {items : List StreamItem} {p : Pipe}
    {g : Progress} (h : Straight schema config items p g) : Framed schema config items p g := by
  induction h with
  | built h => exact .built h
  | opens _ bytes hnext hfilled hf hopen ih => exact ih.opens bytes hnext hfilled hf hopen
  | writes _ position hopened hpiece hleft hloc hwrite ih =>
    exact ih.writes position hopened hpiece hleft hloc hwrite
  | publishes _ hfilled ih => exact ih.publishes hfilled
  | reads _ hread ih => exact ih.reads hread

section Laps

variable {s : Schema} {config : Config} {count i : Nat} {p : Pipe} {g : Progress} {f : Fragment}
  (hs : s.Accepted) (hsimple : s.isSimple = true) (hf : s.fragment? 0 = some f)

include hs hsimple hf

/-- Blank messages take up no bytes. -/
theorem Framed.bytes_of_blanks (h : Framed s config (s.blanks count) p g) :
    p.producer.head.bytes = 0 := by
  obtain ⟨hlays, -⟩ := h.tracks hs (Schema.fits_blanks hs hsimple count)
  have hopened := hlays.opened_le
  rw [Schema.piecesOf_blanks, List.length_replicate] at hopened
  have hmark := Schema.markAt_blanks hf hopened
  have hwork := hlays.works
  revert hwork hmark
  generalize g.left = left
  generalize g.opened = opened
  rintro hmark (⟨hhead, -⟩ | ⟨-, -, -, hbytes, -⟩)
  · rw [hhead, hmark]
    rfl
  · rw [hmark] at hbytes
    exact Nat.eq_zero_of_add_eq_zero_right hbytes

theorem Straight.open_blank (h : Straight s config (s.blanks count) p ⟨i, [], i, i⟩)
    (hi : i < count)
    (hroom : (i + 1) * f.words ≤ p.ring.tail.words + config.size.wordCapacity) :
    ∃ q, Straight s config (s.blanks count) q ⟨i + 1, s.fieldsOf f, i, i⟩ ∧
      q.ring.tail = p.ring.tail ∧ q.consumer = p.consumer := by
  have hreachable := h.framed.reachable
  have hordered := hreachable.ordered hs
  have hbytes := h.framed.bytes_of_blanks hs hsimple hf
  obtain ⟨hlays, -⟩ := h.framed.tracks hs (Schema.fits_blanks hs hsimple count)
  have hhead := hlays.head_words
  rw [Schema.markAt_blanks hf (Nat.le_of_lt hi)] at hhead
  have hopen : (p.openAt 0 0).1 = .ok true := by
    refine hreachable.openAt_of_room hs hf ?_
    have hbehind := hordered.room.2
    unfold FitsBehind
    rw [hreachable.capacity_eq hs] at hbehind ⊢
    rw [Nat.succ_mul] at hroom
    simp only [Mark.le_iff, Mark.words_add, Mark.bytes_add] at hhead hbehind ⊢
    omega
  have hgoes := p.goesOn_openAt 0 0
  exact ⟨_, .opens h 0 (Schema.getElem?_blanks hi) rfl hf (Prod.ext hopen rfl), hgoes.tail,
    hgoes.consumer⟩

theorem Straight.write_blank {left : List Nat}
    (h : Straight s config (s.blanks count) p ⟨i + 1, left, i, i⟩) (hi : i < count)
    (hleft : ∀ position ∈ left, position ∈ s.fieldsOf f) :
    ∃ q, Straight s config (s.blanks count) q ⟨i + 1, [], i, i⟩ ∧
      q.ring.tail = p.ring.tail ∧ q.consumer = p.consumer := by
  induction left generalizing p with
  | nil => exact ⟨p, h, rfl, rfl⟩
  | cons position rest ih =>
    have hreachable := h.framed.reachable
    have hbytes := h.framed.bytes_of_blanks hs hsimple hf
    obtain ⟨hle, hlt, e, -, he, -⟩ := Schema.mem_fieldsOf.1 (hleft position List.mem_cons_self)
    obtain ⟨offset, hfield⟩ := (hreachable.measured hs).exists_field hf hle hlt he
    have hloc : s.locator? position = some ⟨f.depth, offset⟩ := by
      rw [Schema.locator?, he, Option.bind_some, hfield.locator]
    have hwrite : (p.write ⟨f.depth, offset⟩ (s.blankFragment.value position)).1 = .ok () := by
      refine hreachable.write_of_empty hs hloc (Shape.byteLength_blank _) ?_
      rw [hbytes, Nat.zero_sub]
      exact Nat.zero_le _
    have hgoes := p.goesOn_write ⟨f.depth, offset⟩ (s.blankFragment.value position)
    have hwritten := h.writes position rfl (Schema.getElem?_blanks hi) List.mem_cons_self hloc
      (Prod.ext hwrite rfl)
    simp only [List.erase_cons_head] at hwritten
    obtain ⟨q, hq, htail, hconsumer⟩ := ih hwritten
      fun other hother => hleft other (List.mem_cons_of_mem _ hother)
    exact ⟨q, hq, htail.trans hgoes.tail, hconsumer.trans hgoes.consumer⟩

theorem Straight.read_blank (h : Straight s config (s.blanks count) p ⟨i + 1, [], i + 1, i⟩)
    (hi : i < count) :
    ∃ q, Straight s config (s.blanks count) q ⟨i + 1, [], i + 1, i + 1⟩ ∧ p.Batches q ∧
      q.consumer.tail.words = i * f.words := by
  have hfits := Schema.fits_blanks hs hsimple count
  obtain ⟨hschema, hfollows⟩ := h.framed.reachable.follows hs.compiled
  have hanswer := h.framed.read_decided hs hfits
  rw [decide_eq_true (Nat.lt_succ_self i)] at hanswer
  have hattempt := attempt_read (p := p) (hschema ▸ hs.laidOut) hfollows
  rw [show p.read = (.ok true, p.read.2) from Prod.ext hanswer rfl] at hattempt
  have hread := h.reads (Prod.ext hanswer rfl)
  refine ⟨_, hread, hattempt.batches, ?_⟩
  have htail := (hread.framed.tracks hs hfits).2.tail
  rw [Nat.add_sub_cancel, Schema.markAt_blanks hf (Nat.le_of_lt hi)] at htail
  exact congrArg Mark.words htail

end Laps

structure Lap (s : Schema) (config : Config) (count : Nat) (p : Pipe) (i tail : Nat)
    (countdown : Int) : Prop where
  run : Straight s config (s.blanks count) p ⟨i, [], i, i⟩
  tail : p.ring.tail.words = tail
  countdown : p.consumer.batchCountdown = countdown
  batchRelease : p.consumer.batchRelease = config.batchRelease

section Laps

variable {s : Schema} {config : Config} {count i tail : Nat} {countdown : Int} {p : Pipe}
  {f : Fragment} (hs : s.Accepted) (hsimple : s.isSimple = true) (hf : s.fragment? 0 = some f)

include hs hsimple hf

/-- One more message goes through the ring: it is the last of its batch, or it is not. -/
theorem Lap.next (h : p.Lap s config count i tail countdown) (hi : i < count)
    (hroom : (i + 1) * f.words ≤ tail + config.size.wordCapacity) :
    ∃ q : Pipe, (1 < countdown ∧ q.Lap s config count (i + 1) tail (countdown - 1)) ∨
      (countdown ≤ 1 ∧ q.Lap s config count (i + 1) (i * f.words) config.batchRelease) := by
  obtain ⟨opened, hopened, htail, hconsumer⟩ :=
    h.run.open_blank hs hsimple hf hi (by rw [h.tail]; exact hroom)
  obtain ⟨written, hwritten, htail', hconsumer'⟩ :=
    hopened.write_blank hs hsimple hf hi fun _ hposition => hposition
  have hgoes := written.goesOn_publish
  obtain ⟨q, hq, hbatches, hprepared⟩ :=
    Straight.read_blank hs hsimple hf (.publishes hwritten rfl) hi
  have hsame : written.publish.consumer = p.consumer :=
    hgoes.consumer.trans (hconsumer'.trans hconsumer)
  have hsameTail : written.publish.ring.tail = p.ring.tail :=
    hgoes.tail.trans (htail'.trans htail)
  have hbatch : q.consumer.batchRelease = config.batchRelease := by
    rw [hbatches.batchRelease, hsame, h.batchRelease]
  have hreleased := hbatches.released
  rw [hsame, hsameTail, h.countdown, h.batchRelease] at hreleased
  refine ⟨q, hreleased.imp (fun hmore => ?_) fun hlast => ?_⟩
  · obtain ⟨hmany, hcountdown, -, hkept⟩ := hmore
    exact ⟨hmany, hq, by rw [hkept, h.tail], hcountdown, hbatch⟩
  · obtain ⟨hfew, hcountdown, -, hreleased⟩ := hlast
    exact ⟨hfew, hq, by rw [hreleased, hprepared], hcountdown, hbatch⟩

theorem Lap.within (h : p.Lap s config count i tail countdown) (more : Nat)
    (hmore : (more : Int) < countdown) (hcount : i + more ≤ count)
    (hroom : (i + more) * f.words ≤ tail + config.size.wordCapacity) :
    ∃ q : Pipe, q.Lap s config count (i + more) tail (countdown - more) := by
  induction more with
  | zero => exact ⟨p, by simpa using h⟩
  | succ more ih =>
    rw [← Nat.add_assoc] at hroom
    obtain ⟨q, hq⟩ := ih (by omega) (by omega) (by rw [Nat.succ_mul] at hroom; omega)
    obtain ⟨r, ⟨-, hr⟩ | ⟨hfew, -⟩⟩ := hq.next hs hsimple hf (by omega) hroom
    · refine ⟨r, ?_⟩
      rw [← Nat.add_assoc,
        show countdown - ((more + 1 : Nat) : Int) = countdown - more - 1 by omega]
      exact hr
    · omega

/-- A ring without a piece to spare is filled by messages that are all read. -/
theorem exists_full (hvalid : config.validate s = .ok ())
    (hsmall : config.size.wordCapacity < (config.batchRelease + 1) * s.maxFragmentWords) :
    ∃ (count : Nat) (p : Pipe) (tail : Nat) (countdown : Int),
      p.Lap s config count count tail countdown ∧
        tail + config.size.wordCapacity < (count + 1) * f.words := by
  have hwords := hs.words_eq_max hsimple hf
  have hbatch := Config.batchRelease_of_validate hvalid
  obtain ⟨batch, hbatchNat⟩ : ∃ batch : Nat, config.batchRelease = batch + 1 :=
    ⟨(config.batchRelease - 1).toNat, by omega⟩
  have hbuilt : ∀ count, (fresh s config).Lap s config count 0 0 config.batchRelease :=
    fun count => ⟨.built (build_eq_fresh (by rw [hvalid]; rfl)), rfl, rfl, rfl⟩
  have hfewer : config.size.wordCapacity < (batch + 1 + 1) * f.words := by
    rw [hbatchNat, ← hwords] at hsmall
    exact_mod_cast hsmall
  rw [Nat.succ_mul, Nat.succ_mul] at hfewer
  by_cases hwhole : (batch + 1) * f.words ≤ config.size.wordCapacity
  · -- The first batch is released but for its last message, and the second is not complete.
    rw [Nat.succ_mul] at hwhole
    obtain ⟨q, hq⟩ := (hbuilt (batch + 1 + batch)).within hs hsimple hf batch (by omega) (by omega)
      (by rw [Nat.zero_add]; omega)
    obtain ⟨r, ⟨hmany, -⟩ | ⟨-, hr⟩⟩ := hq.next hs hsimple hf (by omega)
      (by rw [Nat.zero_add, Nat.succ_mul]; omega)
    · omega
    · rw [Nat.zero_add] at hr
      obtain ⟨t, ht⟩ := hr.within hs hsimple hf batch (by omega) (Nat.le_refl _)
        (by rw [Nat.add_mul, Nat.succ_mul]; omega)
      refine ⟨_, t, _, _, ht, ?_⟩
      rw [Nat.succ_mul, Nat.add_mul, Nat.succ_mul]
      omega
  · -- The ring is full before the first batch is complete.
    have hpos : 0 < f.words := Nat.lt_of_le_of_lt (Nat.zero_le _)
      ((hs.measured hvalid).base_lt_words hf)
    have hfew : config.size.wordCapacity / f.words ≤ batch :=
      Nat.le_of_lt_succ ((Nat.div_lt_iff_lt_mul hpos).2 (Nat.not_le.1 hwhole))
    obtain ⟨q, hq⟩ := (hbuilt (config.size.wordCapacity / f.words)).within hs hsimple hf
      (config.size.wordCapacity / f.words) (by omega) (by omega)
      (by rw [Nat.zero_add, Nat.zero_add]; exact Nat.div_mul_le_self _ _)
    rw [Nat.zero_add] at hq
    refine ⟨_, q, _, _, hq, ?_⟩
    rw [Nat.zero_add, Nat.mul_comm]
    exact Nat.lt_mul_div_succ _ hpos

end Laps

/-- Everything that is published is read, and there is no room for a fragment. -/
structure Blocked (p : Pipe) (f : Fragment) : Prop where
  drained : p.ring.head.words ≤ p.consumer.next
  full : ¬ p.FitsBehind p.ring.tail ⟨f.words, 0⟩

section Blocked

variable {schema : Schema} {config : Config} {p q : Pipe} {f : Fragment}

/-- Neither half gets a blocked pipe going by trying again. -/
theorem Blocked.retries (h : p.Blocked f) (hs : schema.Accepted)
    (hreachable : Reachable schema config p) (hf : schema.fragment? 0 = some f) {command : Command}
    (hretry : command = .read ∨ command = .openAt 0 0) : (p.run command).2.Blocked f := by
  have hmeasured := hreachable.measured hs
  have hordered := hreachable.ordered hs
  obtain ⟨rfl, hfollows⟩ := hreachable.follows hs.compiled
  rcases hretry with rfl | rfl
  · have hnothing := read_of_unpublished hmeasured hfollows h.drained hordered.seenHead
    obtain ⟨seen, -, heq⟩ := (attempt_read hs.laidOut hfollows).unmoved (by rw [hnothing]; nofun)
    show p.read.2.Blocked f
    rw [heq]
    exact ⟨h.drained, h.full⟩
  · show (p.openAt 0 0).2.Blocked f
    rw [hordered.openAt_of_full hf h.full]
    exact ⟨h.drained, h.full⟩

theorem Blocked.retried (h : p.Blocked f) (hs : schema.Accepted)
    (hreachable : Reachable schema config p) (hf : schema.fragment? 0 = some f)
    {retries : List Command}
    (hretries : ∀ command ∈ retries, command = .read ∨ command = .openAt 0 0) :
    ((retries.foldl (fun (p : Pipe) command => (p.run command).2) p).openAt 0 0).1 = .ok false := by
  induction retries generalizing p with
  | nil =>
    have hordered := hreachable.ordered hs
    obtain ⟨rfl, -⟩ := hreachable.follows hs.compiled
    exact congrArg Prod.fst (hordered.openAt_of_full hf h.full)
  | cons command rest ih =>
    exact ih (h.retries hs hreachable hf (hretries command List.mem_cons_self))
      (hreachable.act (.run command)) fun other hother =>
        hretries other (List.mem_cons_of_mem _ hother)

end Blocked

/-- A ring that holds the largest fragment once more than a batch has fragments is never stuck: once
everything is written, published and read there is room for every fragment and for a marker. No
smaller ring will do: of every script without brackets there is a run, with no release but those of
complete batches, after which everything is read, and the producer finds no room however often both
halves try again. -/
theorem drained_has_room {schema : Schema} {config : Config} (hs : schema.Accepted) :
    (∀ (items : List StreamItem) (p : Pipe) (b : Ledger) (most : Nat),
      Booked schema config items p b → StreamFits schema items →
      (∀ k, k < b.opened → b.bytes k ≤ most) →
      (config.batchRelease + 1) * schema.maxFragmentWords ≤ config.size.wordCapacity →
      (config.batchRelease + 1) * most ≤ config.size.byteCapacity →
      p.consumer.next = p.producer.head.words →
        (∀ cursor bytes, schema.isFragmentStart cursor = true → bytes ≤ most →
          (p.openAt cursor bytes).1 = .ok true) ∧ p.publishMarker.1 = true) ∧
      (schema.isSimple = true → config.validate schema = .ok () →
        config.size.wordCapacity < (config.batchRelease + 1) * schema.maxFragmentWords →
        ∃ (count : Nat) (p : Pipe), StreamFits schema (schema.blanks count) ∧
          Straight schema config (schema.blanks count) p ⟨count, [], count, count⟩ ∧
          p.consumer.next = p.producer.head.words ∧
          ∀ retries : List Command,
            (∀ command ∈ retries, command = .read ∨ command = .openAt 0 0) →
            ((retries.foldl (fun (p : Pipe) command => (p.run command).2) p).openAt 0 0).1 =
              .ok false) := by
  refine ⟨fun items p b most h hfits hmost hwords hbytes hdrained =>
    ⟨fun cursor bytes hstart hle => ?_, ?_⟩, fun hsimple hvalid hsmall => ?_⟩
  · rw [← schema.isSome_fragment?] at hstart
    obtain ⟨f, hf⟩ := Option.isSome_iff_exists.1 hstart
    exact h.reachable.openAt_of_room hs hf
      (h.room_of_drained hs hfits hmost hwords hbytes hdrained (hs.words_le_max hf) hle)
  · have hmeasured := h.reachable.measured hs
    have hroom := h.room_of_drained hs hfits hmost hwords hbytes hdrained hmeasured.marker_le_max
      (Nat.zero_le _)
    obtain ⟨rfl, -⟩ := h.reachable.follows hs.compiled
    exact publishMarker_of_room hroom
  · obtain ⟨f, hf, -⟩ := Schema.fragment?_zero hs.laidOut hs.compiled.size_pos
    obtain ⟨count, p, tail, countdown, hlap, hfull⟩ := exists_full hs hsimple hf hvalid hsmall
    have hframed := hlap.run.framed
    have hreachable := hframed.reachable
    have hfits := Schema.fits_blanks hs hsimple count
    obtain ⟨hlays, hattends⟩ := hframed.tracks hs hfits
    have hhead := hlays.head_words
    have hpublished := congrArg Mark.words hlays.published
    have hmark := congrArg Mark.words (Schema.markAt_blanks hf (Nat.le_refl count))
    refine ⟨count, p, hfits, hlap.run, hattends.next.trans hhead.symm, fun retries hretries =>
      Blocked.retried ⟨?_, fun hroom => ?_⟩ hs hreachable hf hretries⟩
    · rw [hattends.next]
      exact Nat.le_of_eq hpublished
    · have hroomWords := hroom.1
      rw [hreachable.capacity_eq hs] at hroomWords
      rw [Nat.succ_mul] at hfull
      simp only [Mark.words_add, hhead, hmark, hlap.tail] at hroomWords
      omega

/-- A book that is published and read leaves room in a ring of sixteen words for another level and
for a marker, and a ring of four words is full after one tick of three. -/
theorem drained_has_room_book :
    (∃ p b, Booked Schema.book ⟨⟨4, 3⟩, 1⟩ [.message bookQuote, .endOfStream] p b ∧
      p.consumer.next = p.producer.head.words ∧ p.producer.head.words = 10 ∧
      (p.openAt 3 2).1 = .ok true ∧ p.publishMarker.1 = true) ∧
      ∃ count p, Straight (.tick 0 .integerSigned) ⟨⟨2, 1⟩, 1⟩
          ((Schema.tick 0 .integerSigned).blanks count) p ⟨count, [], count, count⟩ ∧
        p.consumer.next = p.producer.head.words ∧ (p.openAt 0 0).1 = .ok false := by
  have hbook : Schema.book.Accepted := ⟨Schema.compiled_book, by decide, by decide, by decide⟩
  have hfields : Schema.ofFields [("Value", .value .integerSigned false)] =
      .ok (.tick 0 .integerSigned) := rfl
  have htick : (Schema.tick 0 .integerSigned).Accepted :=
    ⟨.fields hfields, by decide, by decide, by decide⟩
  obtain ⟨b, hrun, htallies⟩ := framed_bookPublished.booked hbook fits_bookQuote
  have hread := (hrun.step (.reads (eq_ok_of_toOption (by decide +kernel)))).step
    (.reads (eq_ok_of_toOption (by decide +kernel)))
  have hmost : ∀ k, k < b.opened → b.bytes k ≤ 2 := by
    intro k hk
    rw [htallies.opened] at hk
    have hfirst := htallies.bytes 0 _ _ _ ⟨0, 4, 3, 0, true⟩ rfl (by decide) (by decide)
    have hsecond := htallies.bytes 1 _ _ _ ⟨3, 6, 4, 1, false⟩ rfl (by decide) (by decide)
    have hfirst' : b.bytes 0 = 0 := hfirst.trans (by decide)
    have hsecond' : b.bytes 1 = 2 := hsecond.trans (by decide)
    rcases (show k = 0 ∨ k = 1 by simp only at hk; omega) with rfl | rfl <;> omega
  obtain ⟨hopens, hmarks⟩ := (drained_has_room hbook).1 _ _ _ 2 hread fits_bookQuote hmost
    (by decide +kernel) (by decide +kernel) (by decide +kernel)
  obtain ⟨count, p, -, hstraight, hdrained, hblocked⟩ :=
    (@drained_has_room (.tick 0 .integerSigned) ⟨⟨2, 1⟩, 1⟩ htick).2 (by decide +kernel)
      (ok_of_toOption (by decide +kernel)) (by decide +kernel)
  exact ⟨⟨_, _, hread, by decide +kernel, by decide +kernel,
    hopens 3 2 (by decide) (by decide), hmarks⟩, count, p, hstraight, hdrained, hblocked [] nofun⟩

end Pipe

end FragmentPipe
