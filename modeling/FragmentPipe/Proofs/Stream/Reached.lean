import FragmentPipe.Proofs.Refusals
import FragmentPipe.Proofs.Stream.Laid

set_option autoImplicit false

namespace FragmentPipe

namespace Pipe

def revive (p : Pipe) : Pipe := { p with consumer := { p.consumer with hasFragment := true } }

/-- The state of the consumer in a run with raw words. -/
structure Reaches (s : Schema) (l : List Piece) (gaps : Nat → Nat) (p : Pipe) (read : Nat)
    (w : Raw) : Prop where
  skipped_le : w.skipped ≤ gaps read
  next : p.consumer.next = (markAt s l read).words + rawBefore gaps read + w.skipped
  bytes : p.consumer.tail.bytes + p.consumer.fragmentBytes = (markAt s l read).bytes
  unread : w.passing = false → read = 0 → p.consumer.tail = .origin
  prepared : w.passing = false → ∀ k, read = k + 1 →
    p.consumer.tail = placeAt s l gaps k ∧ p.consumer.hasFragment = true
  passed : w.passing = true → p.consumer.tail.words = p.consumer.next ∧
    p.consumer.fragmentBytes = 0 ∧ p.consumer.hasFragment = false
  fresh : read = 0 → p.consumer.nextCursor = none
  shows : ∀ k piece, read = k + 1 → l[k]? = some piece → p.revive.Shows s (baseAt s l k piece) piece

section Consuming

variable {s : Schema} {l : List Piece} {items : List StreamItem} {gaps : Nat → Nat} {p q : Pipe}
  {g : Progress} {w : Raw} {read : Nat} {piece : Piece} {item : ReadItem}

theorem revive_of_hasFragment (h : p.consumer.hasFragment = true) : p.revive = p := by
  unfold revive
  rw [← h]

theorem Moved.revive {start bytes : Nat} (h : p.Moved start item bytes q) :
    p.revive.Moved start item bytes q :=
  ⟨⟨h.schema, h.config, h.producer, h.ring, h.tail, h.next, h.fragmentBytes, h.byteBase, h.starts,
    h.hasFragment, h.isNewMessage, h.endOfStream, h.messageId, h.seenHead⟩, h.depth_lt, h.cursor,
    h.marker, h.place⟩

theorem Reaches.awaits (h : p.Reaches s l gaps read w) : p.revive.Awaits s l read :=
  ⟨h.fresh, fun k piece hread hpiece => ⟨_, h.shows k piece hread hpiece⟩⟩

theorem Reaches.next_eq (h : p.Reaches s l gaps read w) (hskipped : w.skipped = gaps read) :
    p.consumer.next = (placeAt s l gaps read).words := by
  rw [h.next, hskipped, words_placeAt, rawBefore, Nat.add_assoc]

theorem Reaches.tail_le (h : p.Reaches s l gaps read w) :
    p.consumer.tail ≤ placeAt s l gaps (w.first read) := by
  have hbytes := h.bytes
  unfold Raw.first
  cases hpassing : w.passing with
  | true =>
    obtain ⟨hwords, hnone, -⟩ := h.passed hpassing
    have hskipped := h.skipped_le
    refine ⟨?_, Nat.le_of_eq ?_⟩
    · rw [hwords, h.next, if_pos rfl, words_placeAt, rawBefore]
      omega
    · rw [if_pos rfl, bytes_placeAt, ← hbytes, hnone]
      rfl
  | false =>
    rw [if_neg Bool.false_ne_true]
    cases read with
    | zero =>
      rw [h.unread hpassing rfl]
      exact ⟨Nat.zero_le _, Nat.zero_le _⟩
    | succ k =>
      rw [(h.prepared hpassing k rfl).1]
      exact Mark.le_refl _

theorem Reaches.shows_of_reader (h : p.Reaches s l gaps read w) (hkeeps : p.KeepsReader q)
    (hnew : q.consumer.isNewMessage = p.consumer.isNewMessage)
    (hend : q.consumer.endOfStream = p.consumer.endOfStream)
    (hbase : q.consumer.byteBase = p.consumer.byteBase) {k : Nat} (hread : read = k + 1)
    (hpiece : l[k]? = some piece) : q.revive.Shows s (baseAt s l k piece) piece := by
  have hrevive : p.revive.KeepsReader q.revive :=
    ⟨hkeeps.schema, hkeeps.cursor, hkeeps.nextCursor, hkeeps.messageId, hkeeps.sequences,
      hkeeps.starts⟩
  exact hrevive.shows hnew hend rfl hbase (h.shows k piece hread hpiece)

theorem KeepsPrepared.reaches (h : p.KeepsPrepared q) (hreaches : p.Reaches s l gaps read w) :
    q.Reaches s l gaps read w where
  skipped_le := hreaches.skipped_le
  next := h.next.trans hreaches.next
  bytes := by
    rw [h.tail, h.fragmentBytes]
    exact hreaches.bytes
  unread := fun hpassing hread => h.tail.trans (hreaches.unread hpassing hread)
  prepared := by
    rw [h.tail, h.hasFragment]
    exact hreaches.prepared
  passed := by
    rw [h.tail, h.next, h.fragmentBytes, h.hasFragment]
    exact hreaches.passed
  fresh := fun hread => h.nextCursor.trans (hreaches.fresh hread)
  shows := fun k piece hread hpiece => hreaches.shows_of_reader h.toKeepsReader h.isNewMessage
    h.endOfStream h.byteBase hread hpiece

/-- What the producer does, and what becomes of its words, does not concern the consumer. -/
theorem Reaches.of_producer (h : p.Reaches s l gaps read w) {r : Pipe} (hkeeps : p.KeepsConsumer r)
    (hq : r = q) {v : Raw} (hskipped : v.skipped = w.skipped) (hpassing : v.passing = w.passing) :
    q.Reaches s l gaps read v := by
  subst hq
  obtain ⟨granted, claimed, skipped, passing⟩ := v
  obtain rfl : skipped = w.skipped := hskipped
  obtain rfl : passing = w.passing := hpassing
  exact { hkeeps.keepsPrepared.reaches h with }

/-- A skip takes the bytes of the prepared piece into the tail, if it leaves one behind. -/
theorem Reaches.skip (h : p.Reaches s l gaps read w) {words : Nat}
    (hgap : w.skipped + words ≤ gaps read) (hskip : p.skip words = (.ok (), q)) :
    q.Reaches s l gaps read (w.skips words) ∧ q.schema = p.schema ∧ q.producer = p.producer ∧
      q.ring = p.ring := by
  obtain ⟨-, ⟨seen, -, rfl⟩, ⟨-, hcase⟩ | ⟨cause, hcase⟩⟩ := p.skip_cases words <;>
    rw [hcase] at hskip <;> cases hskip
  refine ⟨⟨hgap, ?_, h.bytes, fun hpassing => (nomatch hpassing),
    fun hpassing => (nomatch hpassing),
    fun _ => ⟨rfl, rfl, rfl⟩, h.fresh, fun k piece hread hpiece => ?_⟩, rfl, rfl, rfl⟩
  · show p.consumer.next + words = _
    rw [h.next]
    exact Nat.add_assoc _ _ _
  · refine h.shows_of_reader ?_ ?_ ?_ ?_ hread hpiece
    · exact ⟨rfl, rfl, rfl, rfl, rfl, rfl⟩
    all_goals rfl

theorem Reaches.finds (hs : s.Measured) (hfits : StreamFits s items) (hordered : p.Ordered)
    (hfollows : p.consumer.Follows p.schema) (hlays : p.Lays s (piecesOf items) gaps g w)
    (h : p.Reaches s (piecesOf items) gaps g.read w) (hskipped : w.skipped = gaps g.read)
    (hk : g.read < g.published) (hpiece : (piecesOf items)[g.read]? = some piece) :
    ∃ item q, piece.Item s item ∧
      p.ring.GuidesPast s p.consumer.next (piece.extent s).bytes piece ∧ p.revive.Expects item ∧
        p.read = (.ok true, q) ∧ p.Moved p.consumer.next item (piece.extent s).bytes q := by
  have hfirst := w.first_le g.read
  have hnext := h.next_eq hskipped
  have hguides := hlays.guides hs hfits hpiece hk hfirst
  rw [← hnext] at hguides
  obtain ⟨item, hitem⟩ := exists_item hs.laidOut hfits hpiece
  -- A skip may have left the last piece behind. What is expected next does not depend on that.
  have hexpected : p.revive.Expects item :=
    h.awaits.expects hs hfits (by exact hlays.schema) hpiece hitem hguides
  have hinspect := inspect_of_guides hs hlays.schema hlays.capacity
    (hlays.bytes_le hordered hpiece hk hfirst) hguides hitem
  have hvisible := hlays.above g.read piece hpiece hk
  rw [Mark.words_add, ← hnext, ← hitem.words hs.toAccepted, ← hlays.schema] at hvisible
  obtain ⟨q, hread, hmoved⟩ :=
    read_of_visible (hlays.schema.symm ▸ hs) hfollows hexpected hvisible hinspect
  exact ⟨item, q, hitem, hguides, hexpected, hread, hmoved⟩

section Moving

variable {bytes : Nat} (h : p.Reaches s (piecesOf items) gaps read w)
  (hskipped : w.skipped = gaps read) (hmoved : p.Moved p.consumer.next item bytes q)

include h hskipped hmoved

theorem Reaches.tail_of_moved : q.consumer.tail = placeAt s (piecesOf items) gaps read := by
  rw [hmoved.tail]
  exact Mark.ext (h.next_eq hskipped) h.bytes

theorem Reaches.byteBase_of_moved (hs : s.LaidOut) (hfits : StreamFits s items)
    (hschema : p.schema = s) (hpiece : (piecesOf items)[read]? = some piece)
    (hitem : piece.Item s item) :
    q.consumer.byteBase = baseAt s (piecesOf items) read piece := by
  rw [hmoved.byteBase_of_item hitem]
  by_cases hbegins : piece.index = 0
  · rw [if_pos hbegins, baseAt_of_first hbegins, h.tail_of_moved hskipped hmoved]
    rfl
  · cases hitem with
    | marker | message => exact absurd rfl hbegins
    | @continuation m index e f hf =>
      obtain ⟨j, d, base, hlast, hbefore, -⟩ :=
        h.awaits.continues hs hfits (by exact hschema) hpiece
      rw [if_neg hbegins, hlast, baseAt_succ m index d e]
      exact (h.shows j _ hlast hbefore).byteBase

theorem Reaches.of_moved (hs : s.Accepted) (hschema : p.schema = s)
    (hpiece : (piecesOf items)[read]? = some piece) (hitem : piece.Item s item)
    (hbytes : bytes = (piece.extent s).bytes)
    (hshows : q.Shows s (baseAt s (piecesOf items) read piece) piece) :
    q.Reaches s (piecesOf items) gaps (read + 1) w.reads := by
  have htail := h.tail_of_moved hskipped hmoved
  refine ⟨Nat.zero_le _, ?_, ?_, fun _ hzero => (nomatch hzero), ?_,
    fun hpassing => (nomatch hpassing), fun hzero => (nomatch hzero), ?_⟩
  · rw [hmoved.next, hschema, hitem.words hs, h.next_eq hskipped, markAt_succ hpiece,
      words_placeAt, Mark.words_add]
    show _ = _ + rawBefore gaps (read + 1) + 0
    omega
  · rw [htail, hmoved.fragmentBytes, hbytes, markAt_succ hpiece]
    rfl
  · intro _ k hk
    obtain rfl : read = k := Nat.succ.inj hk
    exact ⟨htail, hmoved.hasFragment⟩
  · intro k piece' hk hpiece'
    obtain rfl : read = k := Nat.succ.inj hk
    rw [hpiece] at hpiece'
    cases hpiece'
    rw [revive_of_hasFragment hmoved.hasFragment]
    exact hshows

end Moving

theorem Lays.of_moved (hs : s.Measured) (hlays : p.Lays s (piecesOf items) gaps g w)
    (h : p.Reaches s (piecesOf items) gaps g.read w) (hskipped : w.skipped = gaps g.read)
    (hk : g.read < g.published) {bytes : Nat} (hmoved : p.Moved p.consumer.next item bytes q) :
    q.Lays s (piecesOf items) gaps { g with read := g.read + 1 } w.reads := by
  have hfirst := w.first_le g.read
  have hbehind := hlays.tail_le hfirst
  obtain ⟨tail, hreleased, hring⟩ := hmoved.ring
  have hmore : p.ring.tail ≤ tail ∧ tail ≤ placeAt s (piecesOf items) gaps g.read := by
    rcases hreleased with rfl | rfl
    · exact ⟨Mark.le_refl _, hbehind⟩
    · rw [h.tail_of_moved hskipped hmoved]
      exact ⟨hbehind, Mark.le_refl _⟩
  exact hlays.of_consumer hs hmoved.schema hmoved.producer hring hmore.2 hmore.1 hfirst hk rfl rfl

/-- Behind its raw words a read finds the next piece of the stream once it is published. -/
theorem Reaches.reads (hs : s.Measured) (hfits : StreamFits s items) (hordered : p.Ordered)
    (hfollows : p.consumer.Follows p.schema) (hlays : p.Lays s (piecesOf items) gaps g w)
    (h : p.Reaches s (piecesOf items) gaps g.read w) (hskipped : w.skipped = gaps g.read)
    (hk : g.read < g.published) :
    ∃ q, p.read = (.ok true, q) ∧ q.Lays s (piecesOf items) gaps { g with read := g.read + 1 }
      w.reads ∧ q.Reaches s (piecesOf items) gaps (g.read + 1) w.reads := by
  obtain ⟨piece, hpiece⟩ := hlays.exists_piece (Nat.lt_of_lt_of_le hk hlays.published_le)
  obtain ⟨item, q, hitem, hguides, hexpected, hread, hmoved⟩ :=
    h.finds hs hfits hordered hfollows hlays hskipped hk hpiece
  have hrevived : p.revive.consumer.Follows p.revive.schema :=
    ⟨hfollows.starts, hfollows.capacity, hfollows.idle, hfollows.rests⟩
  have hshows := hmoved.revive.shows hs hfits (by exact hlays.schema) hrevived h.awaits hpiece hitem
    hguides hexpected
  rw [h.byteBase_of_moved hskipped hmoved hs.laidOut hfits hlays.schema hpiece hitem] at hshows
  exact ⟨q, hread, hlays.of_moved hs h hskipped hk hmoved,
    h.of_moved hskipped hmoved hs.toAccepted hlays.schema hpiece hitem rfl hshows⟩

theorem Reaches.behind (hlays : p.Lays s l gaps g w) (h : p.Reaches s l gaps g.read w)
    (hskipped : w.skipped = gaps g.read) (hall : g.read = g.published) :
    p.ring.head.words ≤ p.consumer.next := by
  rw [h.next_eq hskipped, hall]
  exact hlays.below

/-- Behind its raw words a read answers whether the next piece is published. -/
theorem Reaches.read_decided (hs : s.Measured) (hfits : StreamFits s items) (hordered : p.Ordered)
    (hfollows : p.consumer.Follows p.schema) (hlays : p.Lays s (piecesOf items) gaps g w)
    (h : p.Reaches s (piecesOf items) gaps g.read w)
    (hready : w.skipped = gaps g.read ∨ p.ring.head.words ≤ p.consumer.next) :
    p.read.1 = .ok (decide (w.skipped = gaps g.read ∧ g.read < g.published)) := by
  by_cases hnext : w.skipped = gaps g.read ∧ g.read < g.published
  · obtain ⟨q, hread, -⟩ := h.reads hs hfits hordered hfollows hlays hnext.1 hnext.2
    rw [hread, decide_eq_true hnext]
  · rw [decide_eq_false hnext]
    have hhead : p.ring.head.words ≤ p.consumer.next := by
      rcases hready with hskipped | hhead
      · exact h.behind hlays hskipped
          (Nat.le_antisymm hlays.read_le (Nat.le_of_not_lt fun hlt => hnext ⟨hskipped, hlt⟩))
      · exact hhead
    exact read_of_unpublished (hlays.schema.symm ▸ hs) hfollows hhead hordered.seenHead

/-- The read that succeeded is the one of the next piece, for it would have found nothing else. -/
theorem Reaches.of_read (hs : s.Measured) (hfits : StreamFits s items) (hordered : p.Ordered)
    (hfollows : p.consumer.Follows p.schema) (hlays : p.Lays s (piecesOf items) gaps g w)
    (h : p.Reaches s (piecesOf items) gaps g.read w) (hskipped : w.skipped = gaps g.read)
    (hread : p.read = (.ok true, q)) :
    q.Lays s (piecesOf items) gaps { g with read := g.read + 1 } w.reads ∧
      q.Reaches s (piecesOf items) gaps (g.read + 1) w.reads := by
  have hdecided := h.read_decided hs hfits hordered hfollows hlays (.inl hskipped)
  rw [hread] at hdecided
  have hnext := of_decide_eq_true (Except.ok.inj hdecided).symm
  obtain ⟨r, hdone, htracks⟩ := h.reads hs hfits hordered hfollows hlays hskipped hnext.2
  rw [hread] at hdone
  cases hdone
  exact htracks

theorem Lays.skip (hs : s.Measured) (hlays : p.Lays s l gaps g w) (h : p.Reaches s l gaps g.read w)
    {words : Nat} (hgap : w.skipped + words ≤ gaps g.read) (hskip : p.skip words = (.ok (), q)) :
    q.Lays s l gaps g (w.skips words) ∧ q.Reaches s l gaps g.read (w.skips words) := by
  obtain ⟨hreaches, hschema, hproducer, hring⟩ := h.skip hgap hskip
  have hfirst := w.first_le g.read
  exact ⟨hlays.of_consumer hs hschema hproducer hring (hlays.tail_le hfirst) (Mark.le_refl _) hfirst
    hlays.read_le rfl rfl, hreaches⟩

theorem Lays.releaseNow (hs : s.Measured) (hordered : p.Ordered) (hlays : p.Lays s l gaps g w)
    (h : p.Reaches s l gaps g.read w) : p.releaseNow.Lays s l gaps g w := by
  unfold Pipe.releaseNow release
  split
  · exact hlays.of_consumer hs rfl rfl rfl h.tail_le hordered.released (Nat.le_refl _) hlays.read_le
      rfl rfl
  · exact hlays

theorem Unmoved.tracks (hunmoved : p.Unmoved q) (hs : s.Measured)
    (h : p.Lays s l gaps g w ∧ p.Reaches s l gaps g.read w) :
    q.Lays s l gaps g w ∧ q.Reaches s l gaps g.read w :=
  ⟨h.1.of_unmoved hs hunmoved, hunmoved.keepsPrepared.reaches h.2⟩

end Consuming

section Runs

variable {schema : Schema} {config : Config} {items : List StreamItem} {gaps : Nat → Nat}
  {p q : Pipe} {g : Progress} {w : Raw}

theorem lays_built (h : build schema config = .ok p) :
    p.Lays schema (piecesOf items) gaps ⟨0, [], 0, 0⟩ .none := by
  refine ⟨lodges_built h _ _ _, Nat.le_refl _, Nat.le_refl _, Nat.zero_le _, ?_, ?_, ?_,
    fun k _ _ hk => (nomatch hk), ?_, .idle ?_ ?_⟩ <;> rw [eq_fresh_of_build h]
  · exact Nat.zero_le _
  · rw [markAt_zero]
    rfl
  · exact Nat.zero_le _
  · exact fun _ => rfl
  · rw [markAt_zero]
    rfl
  · rfl

theorem reaches_built (h : build schema config = .ok p) :
    p.Reaches schema (piecesOf items) gaps 0 .none := by
  rw [eq_fresh_of_build h]
  refine ⟨Nat.zero_le _, ?_, ?_, fun _ _ => rfl, fun _ k hk => (nomatch hk),
    fun hpassing => (nomatch hpassing), fun _ => rfl, fun k _ hk => (nomatch hk)⟩
  · rw [markAt_zero]
    rfl
  · rw [markAt_zero]
    rfl

/-- A run with raw words keeps what the ring carries and where the consumer stands in step with the
stream. -/
theorem Spaced.tracks (h : Spaced schema config items gaps p g w) (hs : schema.Accepted)
    (hfits : StreamFits schema items) :
    p.Lays schema (piecesOf items) gaps g w ∧ p.Reaches schema (piecesOf items) gaps g.read w := by
  have hmeasured := h.reachable.measured hs
  induction h with
  | built h => exact ⟨lays_built h, reaches_built h⟩
  | opens h bytes hnext hfilled hclaimed hf hopen ih =>
    exact ⟨ih.1.openAt hmeasured hfits (h.reachable.ordered hs) hfilled hclaimed hnext hf hopen,
      ih.2.of_producer (keepsConsumer_openAt _ _ _) (congrArg Prod.snd hopen) rfl rfl⟩
  | refusesToOpen h cursor bytes hopen hrefused ih =>
    exact ⟨ih.1.glanced (glances_openAt (by rw [hopen]; exact hrefused)) (congrArg Prod.snd hopen),
      ih.2.of_producer (keepsConsumer_openAt _ _ _) (congrArg Prod.snd hopen) rfl rfl⟩
  | writes h position hopened hpiece hleft hloc hwrite ih =>
    exact ⟨ih.1.write hmeasured hfits (h.reachable.ordered hs) hopened hpiece hleft hloc hwrite,
      ih.2.of_producer (keepsConsumer_write _ _ _) (congrArg Prod.snd hwrite) rfl rfl⟩
  | refusesToWrite h position hopened hpiece hleft hloc hwrite ih =>
    exact ⟨ih.1.glanced (glances_write (by rw [hwrite]; nofun)) (congrArg Prod.snd hwrite),
      ih.2.of_producer (keepsConsumer_write _ _ _) (congrArg Prod.snd hwrite) rfl rfl⟩
  | publishes h hfilled ih =>
    exact ⟨ih.1.publish hmeasured (h.reachable.ordered hs) hfilled,
      ih.2.of_producer (keepsConsumer_publish _) rfl rfl rfl⟩
  | marks h hnext hfilled hclaimed hmarker ih =>
    exact ⟨ih.1.publishMarker hmeasured hfits (h.reachable.ordered hs) hfilled hclaimed hnext
        hmarker,
      ih.2.of_producer (keepsConsumer_publishMarker _) (congrArg Prod.snd hmarker) rfl rfl⟩
  | refusesToMark h hfilled hmarker ih =>
    exact ⟨ih.1.publishMarker_refused hmeasured (h.reachable.ordered hs) hfilled hmarker,
      ih.2.of_producer (keepsConsumer_publishMarker _) (congrArg Prod.snd hmarker) rfl rfl⟩
  | findsRoom h words hroom ih =>
    exact ⟨ih.1.roomFor (h.reachable.ordered hs) hroom,
      ih.2.of_producer (keepsConsumer_roomFor _ _) (congrArg Prod.snd hroom) rfl rfl⟩
  | findsNoRoom h words hroom ih =>
    exact ⟨ih.1.glanced (glances_roomFor _) (congrArg Prod.snd hroom),
      ih.2.of_producer (keepsConsumer_roomFor _ _) (congrArg Prod.snd hroom) rfl rfl⟩
  | stores h offset value hgranted ih =>
    exact ⟨ih.1.storeAhead hmeasured value hgranted,
      ih.2.of_producer (keepsConsumer_storeAhead _ _ _) rfl rfl rfl⟩
  | claims h words hfilled hgap hclaim ih =>
    exact ⟨ih.1.claim hmeasured (h.reachable.ordered hs) hfilled hgap hclaim,
      ih.2.of_producer (keepsConsumer_claim _ _) (congrArg Prod.snd hclaim) rfl rfl⟩
  | refusesToClaim h words hclaim ih =>
    exact ⟨ih.1.glanced (glances_claim (by rw [hclaim]; nofun)) (congrArg Prod.snd hclaim),
      ih.2.of_producer (keepsConsumer_claim _ _) (congrArg Prod.snd hclaim) rfl rfl⟩
  | reads h hskipped hread ih =>
    obtain ⟨rfl, hfollows⟩ := h.reachable.follows hs.compiled
    exact ih.2.of_read hmeasured hfits (h.reachable.ordered hs) hfollows ih.1 hskipped hread
  | refusesToRead h hready hread hrefused ih =>
    obtain ⟨rfl, hfollows⟩ := h.reachable.follows hs.compiled
    have hattempt := attempt_read hmeasured.laidOut hfollows
    rw [hread] at hattempt
    exact (hattempt.unmoved hrefused).tracks hmeasured ih
  | skips h words hgap hskip ih => exact ih.1.skip hmeasured ih.2 hgap hskip
  | refusesToSkip h words hskip ih =>
    have hunmoved := unmoved_skip (by rw [hskip]; nofun)
    rw [hskip] at hunmoved
    exact hunmoved.tracks hmeasured ih
  | releases h ih =>
    exact ⟨ih.1.releaseNow hmeasured (h.reachable.ordered hs) ih.2,
      (keepsPrepared_releaseNow _).reaches ih.2⟩

end Runs

end Pipe

end FragmentPipe
