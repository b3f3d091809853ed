import FragmentPipe.Proofs.Stream.Copied

set_option autoImplicit false

namespace FragmentPipe

def Piece.beginsMessage : Piece → Bool
  | .marker => false
  | .fragment _ index _ => index == 0

/-- Two pipes, of which the first is the source of the second: the ledger of the source, the number
of pieces that were passed on and of those that the target has read, and the source as it was after
each of its reads. -/
structure Relay where
  source : Pipe
  ledger : Ledger
  target : Pipe
  copied : Nat
  received : Nat
  origins : List Pipe

open Pipe in
/-- The states of a relay over all runs: the source frames a stream, what it has prepared is passed
on once before it reads on, and the consumer of the target reads and releases at any time. -/
inductive Relayed (schema : Schema) (sourceConfig targetConfig : Config)
    (items : List StreamItem) : Relay → Prop where
  | built {p q : Pipe} (hsource : build schema sourceConfig = .ok p)
      (htarget : build schema targetConfig = .ok q) :
      Relayed schema sourceConfig targetConfig items ⟨p, .blank, q, 0, 0, []⟩
  | runs {x : Relay} {p : Pipe} {b : Ledger}
      (h : Relayed schema sourceConfig targetConfig items x)
      (hstep : x.source.Books schema (piecesOf items) x.ledger p b)
      (hsame : b.read = x.ledger.read) :
      Relayed schema sourceConfig targetConfig items { x with source := p, ledger := b }
  | reads {x : Relay} {p : Pipe} (h : Relayed schema sourceConfig targetConfig items x)
      (hcopied : x.copied = x.ledger.read) (hread : x.source.read = (.ok true, p)) :
      Relayed schema sourceConfig targetConfig items
        { x with
          source := p, ledger := { x.ledger with read := x.ledger.read + 1 }
          origins := x.origins ++ [p] }
  | relays {x : Relay} {q : Pipe} (h : Relayed schema sourceConfig targetConfig items x)
      (hprepared : x.ledger.read = x.copied + 1)
      (hrelay : x.target.relayFrom x.source = (.ok true, q)) :
      Relayed schema sourceConfig targetConfig items
        { x with target := q, copied := x.copied + 1 }
  | refusesToRelay {x : Relay} (h : Relayed schema sourceConfig targetConfig items x)
      (hrefuses : x.target.Refuses (.relayFrom x.source)) :
      Relayed schema sourceConfig targetConfig items
        { x with target := (x.target.relayFrom x.source).2 }
  | receives {x : Relay} {q : Pipe} (h : Relayed schema sourceConfig targetConfig items x)
      (hread : x.target.read = (.ok true, q)) :
      Relayed schema sourceConfig targetConfig items
        { x with target := q, received := x.received + 1 }
  | refusesToReceive {x : Relay} (h : Relayed schema sourceConfig targetConfig items x)
      (hrefuses : x.target.Refuses (.run .read)) :
      Relayed schema sourceConfig targetConfig items { x with target := x.target.read.2 }
  | releases {x : Relay} (h : Relayed schema sourceConfig targetConfig items x) :
      Relayed schema sourceConfig targetConfig items { x with target := x.target.releaseNow }

namespace Relayed

variable {schema : Schema} {sourceConfig targetConfig : Config} {items : List StreamItem}
  {x : Relay}

theorem booked (h : Relayed schema sourceConfig targetConfig items x) :
    Pipe.Booked schema sourceConfig items x.source x.ledger := by
  induction h with
  | built hsource _ => exact .built hsource
  | runs _ hstep _ ih => exact .step ih hstep
  | reads _ _ hread ih => exact .step ih (.reads hread)
  | relays | refusesToRelay | receives | refusesToReceive | releases => assumption

theorem target_reachable (h : Relayed schema sourceConfig targetConfig items x) :
    Pipe.Reachable schema targetConfig x.target := by
  have hact : ∀ {p q : Pipe} (action : Action), Pipe.Reachable schema targetConfig p →
      (p.act action).2 = q → Pipe.Reachable schema targetConfig q :=
    fun action h heq => heq ▸ h.act action
  induction h with
  | built _ htarget => exact .built htarget
  | runs _ _ _ ih | reads _ _ _ ih => exact ih
  | relays _ _ hrelay ih => exact hact (.relayFrom _) ih (congrArg Prod.snd hrelay)
  | refusesToRelay _ _ ih => exact ih.act (.relayFrom _)
  | receives _ hread ih => exact hact (.run .read) ih (congrArg Prod.snd hread)
  | refusesToReceive _ _ ih => exact ih.act (.run .read)
  | releases _ ih => exact ih.act (.run .releaseNow)

end Relayed

namespace Pipe

structure ReadsAlike (p q : Pipe) (loc : Locator) (shape : Shape) : Prop where
  value : ∃ value, p.readValue loc shape = .ok value ∧ q.readValue loc shape = .ok value
  length : shape = .bytes →
    ∃ length, p.readLength loc = .ok length ∧ q.readLength loc = .ok length
  bytes : shape = .bytes →
    ∀ limit, ∃ data, p.readBytes loc limit = .ok data ∧ q.readBytes loc limit = .ok data
  text : shape = .bytes → ∃ text, p.readText loc = .ok text ∧ q.readText loc = .ok text

/-- Two pipes have the same prepared, and its fields read the same. Of the fields that hold bytes
only those are compared that were written. -/
structure PreparedAlike (p q : Pipe) (written : Nat → Bool) : Prop where
  cursor : q.consumer.cursor = p.consumer.cursor
  messageId : q.consumer.messageId = p.consumer.messageId
  isNewMessage : q.consumer.isNewMessage = p.consumer.isNewMessage
  endOfStream : q.consumer.endOfStream = p.consumer.endOfStream
  fields : ∀ cursor position loc shape, p.consumer.cursor = some cursor →
    p.schema.HasField cursor position loc shape →
      (shape = .bytes → written position = true) → p.ReadsAlike q loc shape

theorem readsAlike_of_position {p q : Pipe} {loc : Locator} {shape : Shape} {position : Nat}
    (hp : p.consumer.position? loc = some position) (hq : q.consumer.position? loc = some position)
    (hbase : q.consumer.byteBase = p.consumer.byteBase)
    (hwords : ∀ i, i < shape.words → p.ring.word (position + i) = q.ring.word (position + i))
    (hbytes : shape = .bytes → ∀ i, q.consumer.byteBase + (q.ring.spanAt position).1 ≤ i →
      i < q.consumer.byteBase + (q.ring.spanAt position).1 + (q.ring.spanAt position).2 →
        p.ring.byte i = q.ring.byte i) : p.ReadsAlike q loc shape := by
  have hfound : ∀ {r : Pipe} {α : Type} (look : Nat → α), r.consumer.position? loc = some position →
      r.atField loc look = .ok (look position) := by
    intro r α look hposition
    unfold atField
    rw [hposition]
  refine ⟨⟨_, ?_, hfound _ hq⟩, fun hshape => ⟨_, ?_, hfound _ hq⟩,
    fun hshape limit => ⟨_, ?_, hfound _ hq⟩, fun hshape => ⟨_, ?_, hfound _ hq⟩⟩
  · refine (hfound _ hp).trans (congrArg _ ?_)
    rw [← hbase]
    exact Ring.valueAt_congr hwords hbytes
  · subst hshape
    refine (hfound _ hp).trans (congrArg _ ?_)
    rw [Ring.spanAt_congr hwords]
  · subst hshape
    refine (hfound _ hp).trans (congrArg _ ?_)
    rw [← hbase]
    exact Ring.spanBytes_congr hwords (hbytes rfl)
  · subst hshape
    refine (hfound _ hp).trans (congrArg _ ?_)
    rw [← hbase, Ring.spanAt_congr hwords, Ring.spanBytes_congr hwords (hbytes rfl)]

section Alike

variable {s : Schema} {items : List StreamItem} {p q : Pipe} {b : Ledger} {k : Nat} {piece : Piece}

theorem ShowsFragment.position_eq (hpresents : p.Presents)
    (hschema : p.schema = s) (hstands : p.Stands s (piecesOf items) b) (hread : b.read = k + 1)
    {base : Nat} {m : MessageData} {index : Nat} {d : FragmentData}
    (h : p.ShowsFragment s base m index d) {f : Fragment} (hf : s.fragment? d.cursor = some f)
    (offset : Nat) :
    p.consumer.position? ⟨f.depth, offset⟩ =
      some ((b.mark s (piecesOf items) k).words + offset) := by
  obtain rfl := hschema
  have hstart : f.start = d.cursor := (Int.ofNat.inj (Schema.fragment?_eq_some hf).1).symm
  have hslot := (hpresents h.hasFragment f (hstart ▸ h.cursor) (hstart.symm ▸ hf)).1
  rw [Consumer.position?, hslot, hstands.tail_eq hread]
  rfl

/-- Two consumers that have read as much of a stream have the same prepared where the rings agree
about it. -/
theorem Stands.preparedAlike (hs : s.Measured) (hp : p.Stands s (piecesOf items) b)
    (hq : q.Stands s (piecesOf items) b) (hread : b.read = k + 1)
    (hpiece : (piecesOf items)[k]? = some piece) (hschemaP : p.schema = s) (hschemaQ : q.schema = s)
    (hpresentsP : p.Presents) (hpresentsQ : q.Presents) {told complete : Prop}
    (hbears : q.ring.Bears s (b.mark s (piecesOf items) k) (b.base k) (b.bytes k) (b.written k) told
      complete piece)
    (hkeeps : p.ring.Keeps q.ring (b.mark s (piecesOf items) k)
      (b.mark s (piecesOf items) (k + 1))) :
    p.PreparedAlike q (b.written k) := by
  obtain ⟨baseP, hshowsP⟩ := hp.awaits.shows k piece hread hpiece
  obtain ⟨baseQ, hshowsQ⟩ := hq.awaits.shows k piece hread hpiece
  cases piece with
  | marker =>
    refine ⟨hshowsQ.cursor.trans hshowsP.cursor.symm,
      hshowsQ.messageId.trans hshowsP.messageId.symm,
      hshowsQ.isNewMessage.trans hshowsP.isNewMessage.symm,
      hshowsQ.endOfStream.trans hshowsP.endOfStream.symm, fun cursor _ _ _ hcursor => ?_⟩
    rw [hshowsP.cursor] at hcursor
    cases hcursor
  | fragment m index d =>
    refine ⟨hshowsQ.cursor.trans hshowsP.cursor.symm,
      hshowsQ.messageId.trans hshowsP.messageId.symm,
      hshowsQ.isNewMessage.trans hshowsP.isNewMessage.symm,
      hshowsQ.endOfStream.trans hshowsP.endOfStream.symm,
      fun cursor position loc shape hcursor hfield hwritten => ?_⟩
    rw [hshowsP.cursor] at hcursor
    cases hcursor
    rw [hschemaP] at hfield
    obtain ⟨f, e, offset, hf, hplaced, hshape, rfl⟩ := hfield.field hs
    have hhigh := hplaced.lt_words
    rw [Token.words_of_shape? hshape] at hhigh
    rw [b.mark_succ hpiece, Piece.extent, hf] at hkeeps
    refine readsAlike_of_position (hshowsP.position_eq hpresentsP hschemaP hp hread hf offset)
      (hshowsQ.position_eq hpresentsQ hschemaQ hq hread hf offset) ?_ (fun i hi => ?_)
      fun hbytes i hfirst hlast => ?_
    · rw [hq.byteBase k hread, hp.byteBase k hread]
    · exact (hkeeps.words _ (by omega) (by simp only [Mark.words_add]; omega)).symm
    · subst hbytes
      have hspan := (hbears f hf).span position e offset hplaced hshape (hwritten rfl)
      rw [hq.byteBase k hread] at hfirst hlast
      obtain ⟨hfrom, hto⟩ := hspan i hfirst hlast
      exact (hkeeps.bytes i hfrom hto).symm

end Alike

theorem Shows.beginsMessage {s : Schema} {p : Pipe} {base : Nat} {piece : Piece}
    (h : p.Shows s base piece) :
    (p.consumer.isNewMessage && !p.consumer.endOfStream) = piece.beginsMessage := by
  cases piece with
  | marker =>
    rw [h.isNewMessage, h.endOfStream]
    rfl
  | fragment m index d =>
    rw [h.isNewMessage, h.endOfStream, Bool.not_false, Bool.and_true]
    rfl

theorem producer_read {p : Pipe} (hs : p.schema.LaidOut) (hfollows : p.consumer.Follows p.schema) :
    p.read.2.producer = p.producer := by
  have hattempt := attempt_read hs hfollows
  generalize p.read = result at hattempt
  cases hattempt with
  | moved _ _ hmoved => exact hmoved.producer
  | nothing hunmoved | corrupt hunmoved =>
    obtain ⟨seen, -, rfl⟩ := hunmoved
    rfl

end Pipe

namespace Relay

/-- The target carries what was passed on and its consumer stands behind what it has read. What the
source had prepared lies unchanged in the source until it reads on, and in the target from when it
is passed on until the target reads on. -/
structure Faithful (s : Schema) (l : List Piece) (x : Relay) : Prop where
  copied_le : x.copied ≤ x.ledger.read
  origins : x.origins.length = x.ledger.read
  covers : x.target.Covers s l (x.ledger.copied x.copied x.received) x.copied
  stands : x.target.Stands s l (x.ledger.copied x.copied x.received)
  origin : ∀ k (origin : Pipe), x.origins[k]? = some origin → origin.schema = s ∧ origin.Presents ∧
    origin.Stands s l { x.ledger with read := k + 1 }
  held : ∀ k origin, x.origins[k]? = some origin → x.ledger.read = k + 1 →
    origin.ring.Keeps x.source.ring (x.ledger.mark s l k) (x.ledger.mark s l (k + 1))
  passed : ∀ k origin, x.origins[k]? = some origin → k < x.copied → x.received ≤ k + 1 →
    origin.ring.Keeps x.target.ring (x.ledger.mark s l k) (x.ledger.mark s l (k + 1))
  fragmentsWritten : x.target.producer.fragmentsWritten = x.copied
  messagesWritten : x.target.producer.messagesWritten = (l.take x.copied).countP Piece.beginsMessage

section Steps

open Pipe

variable {schema : Schema} {sourceConfig targetConfig : Config} {items : List StreamItem}
  {x : Relay} {p q : Pipe} {b : Ledger}

theorem Faithful.runs (hs : schema.Accepted) (hreachable : Reachable schema sourceConfig x.source)
    (hcovers : x.source.Covers schema (piecesOf items) x.ledger x.ledger.published)
    (h : x.Faithful schema (piecesOf items))
    (hstep : x.source.Books schema (piecesOf items) x.ledger p b)
    (hsame : b.read = x.ledger.read) :
    Faithful schema (piecesOf items) { x with source := p, ledger := b } := by
  have hagrees := hstep.agrees hcovers
  have hkeeps := hstep.keepsPublished hs hreachable hcovers
  have hread := hcovers.read_le
  have hcopied := h.copied_le
  have hmark : ∀ k, k ≤ x.ledger.read →
      b.mark schema (piecesOf items) k = x.ledger.mark schema (piecesOf items) k :=
    fun k hk => hagrees.mark (Nat.le_trans hk hread)
  have hlt : ∀ k origin, x.origins[k]? = some origin → k < x.ledger.read :=
    fun k origin horigin => h.origins ▸ (List.getElem?_eq_some_iff.1 horigin).1
  refine ⟨hsame ▸ hcopied, h.origins.trans hsame.symm, h.covers.of_agrees (hagrees.mono (by omega)),
    h.stands.of_agrees rfl ?_, fun k origin horigin => ?_, fun k origin horigin hlast => ?_,
    fun k origin horigin hk hvisible => ?_, h.fragmentsWritten, h.messagesWritten⟩
  · have hreceived := h.covers.read_le
    exact hagrees.mono (show x.received ≤ x.ledger.published by
      simp only [Ledger.copied] at hreceived
      omega)
  · obtain ⟨hschema, hpresents, hstands⟩ := h.origin k origin horigin
    have hk := hlt k origin horigin
    exact ⟨hschema, hpresents,
      hstands.of_agrees rfl (hagrees.mono (show k + 1 ≤ x.ledger.published by omega))⟩
  · have hk : x.ledger.read = k + 1 := hsame.symm.trans hlast
    simp only
    rw [hmark k (by omega), hmark (k + 1) (by omega)]
    refine (h.held k origin horigin hk).trans (hkeeps.mono ?_ ?_)
    · exact hcovers.tail_le (Nat.le_of_eq hk)
    · rw [hcovers.published]
      exact x.ledger.mark_mono _ _ (by omega)
  · have hk' : k < x.copied := hk
    simp only
    rw [hmark k (by omega), hmark (k + 1) (by omega)]
    exact h.passed k origin horigin hk hvisible

theorem Faithful.reads (hcovers : p.Covers schema (piecesOf items)
      { x.ledger with read := x.ledger.read + 1 } x.ledger.published)
    (hstands : p.Stands schema (piecesOf items) { x.ledger with read := x.ledger.read + 1 })
    (hpresents : p.Presents) (h : x.Faithful schema (piecesOf items))
    (hcopied : x.copied = x.ledger.read) :
    Faithful schema (piecesOf items)
      { x with
        source := p, ledger := { x.ledger with read := x.ledger.read + 1 }
        origins := x.origins ++ [p] } := by
  have horigins : ∀ k origin, (x.origins ++ [p])[k]? = some origin →
      x.origins[k]? = some origin ∨ (k = x.ledger.read ∧ origin = p) := by
    intro k origin horigin
    rw [List.getElem?_append] at horigin
    split at horigin
    · exact .inl horigin
    · rename_i hbehind
      obtain ⟨hlt, hsame⟩ := List.getElem?_eq_some_iff.1 horigin
      rw [List.getElem_singleton] at hsame
      have hlength := h.origins
      simp only [List.length_singleton] at hlt
      exact .inr ⟨by omega, hsame.symm⟩
  refine ⟨Nat.le_succ_of_le h.copied_le, by simp [h.origins], h.covers, h.stands,
    fun k origin horigin => ?_, fun k origin horigin hlast => ?_,
    fun k origin horigin hk hvisible => ?_, h.fragmentsWritten, h.messagesWritten⟩
  · rcases horigins k origin horigin with hbefore | ⟨rfl, rfl⟩
    · exact h.origin k origin hbefore
    · exact ⟨hcovers.schema, hpresents, hstands⟩
  · rcases horigins k origin horigin with hbefore | ⟨-, rfl⟩
    · have hlt := (List.getElem?_eq_some_iff.1 hbefore).1
      have hlength := h.origins
      simp only at hlast
      omega
    · exact .of_eq rfl rfl
  · rcases horigins k origin horigin with hbefore | ⟨rfl, -⟩
    · exact h.passed k origin hbefore hk hvisible
    · simp only at hk
      omega

theorem Faithful.relays (hs : schema.Accepted) (hfits : StreamFits schema items)
    (hreachable : Reachable schema targetConfig x.target)
    (hcovers : x.source.Covers schema (piecesOf items) x.ledger x.ledger.published)
    (hstands : x.source.Stands schema (piecesOf items) x.ledger)
    (h : x.Faithful schema (piecesOf items)) (hprepared : x.ledger.read = x.copied + 1)
    (hrelay : x.target.relayFrom x.source = (.ok true, q)) :
    Faithful schema (piecesOf items) { x with target := q, copied := x.copied + 1 } := by
  have hmeasured := hreachable.measured hs
  have hread := hcovers.read_le
  have hreceived : x.received ≤ x.copied := h.covers.read_le
  obtain ⟨piece, hpiece⟩ := hcovers.exists_piece (k := x.copied) (by
    have := hcovers.published_le
    omega)
  obtain ⟨base, hshows⟩ := hstands.awaits.shows x.copied piece hprepared hpiece
  have hhead : x.target.producer.head = x.source.consumer.tail :=
    h.covers.head.trans (hstands.tail_eq hprepared).symm
  have htail : x.target.ring.tail ≤ x.target.producer.head := by
    rw [h.covers.head]
    refine Mark.le_trans h.covers.tail ((x.ledger.copied x.copied x.received).mark_mono _ _ ?_)
    simp only [Ledger.copied]
    omega
  have hpasses := passes_of_relayFrom (hreachable.ordered hs) (h.covers.settled rfl) htail hhead
    hrelay
  have hconsumer := x.target.keepsConsumer_accept x.source.consumer fun ring =>
    ring.copyPrepared x.source.ring x.source.consumer
  rw [show x.target.accept x.source.consumer _ = _ from hrelay] at hconsumer
  refine ⟨Nat.le_of_eq hprepared.symm, h.origins,
    hcovers.passes hmeasured hfits hstands hprepared hpiece h.covers hpasses,
    h.stands.of_same hconsumer.keepsPrepared rfl rfl rfl, h.origin, h.held,
    fun k origin horigin hk hvisible => ?_, ?_, ?_⟩
  · by_cases hnew : k = x.copied
    · subst hnew
      have hcopies := hpasses.copies
      rw [hstands.extent_eq hprepared, hstands.tail_eq hprepared] at hcopies
      exact (h.held _ origin horigin hprepared).trans hcopies
    · have hbefore : k < x.copied := by
        simp only at hk
        omega
      refine (h.passed k origin horigin hbefore hvisible).trans (hpasses.keeps.mono ?_ ?_)
      · exact h.covers.tail_le hvisible
      · rw [h.covers.head]
        exact x.ledger.mark_mono _ _ hbefore
  · rw [hpasses.fragmentsWritten, h.fragmentsWritten]
  · rw [hpasses.messagesWritten, h.messagesWritten, hshows.beginsMessage, List.take_add_one, hpiece,
      List.countP_append]
    cases hbegins : piece.beginsMessage <;> simp [hbegins]

theorem Faithful.turns (hs : schema.Accepted) (hfits : StreamFits schema items)
    (hreachable : Reachable schema targetConfig x.target) (h : x.Faithful schema (piecesOf items))
    {received : Nat} (hreceived : x.received ≤ received)
    (hstep : x.target.Books schema (piecesOf items) (x.ledger.copied x.copied x.received) q
      (x.ledger.copied x.copied received))
    (hfragments : q.producer.fragmentsWritten = x.target.producer.fragmentsWritten)
    (hmessages : q.producer.messagesWritten = x.target.producer.messagesWritten) :
    Faithful schema (piecesOf items) { x with target := q, received } := by
  obtain ⟨hcovers, hstands⟩ := hstep.balances hs hfits hreachable h.covers h.stands
  have hkeeps := hstep.keepsPublished hs hreachable h.covers
  refine ⟨h.copied_le, h.origins, hcovers, hstands, h.origin, h.held,
    fun k origin horigin hk hvisible => ?_, hfragments.trans h.fragmentsWritten,
    hmessages.trans h.messagesWritten⟩
  have hvisible' : x.received ≤ k + 1 := Nat.le_trans hreceived hvisible
  refine (h.passed k origin horigin hk hvisible').trans (hkeeps.mono ?_ ?_)
  · exact h.covers.tail_le hvisible'
  · rw [h.covers.published]
    exact x.ledger.mark_mono _ _ hk

end Steps

end Relay

namespace Relayed

open Pipe Relay

variable {schema : Schema} {sourceConfig targetConfig : Config} {items : List StreamItem}
  {x : Relay}

theorem faithful_built {p q : Pipe} (htarget : build schema targetConfig = .ok q) :
    Faithful schema (piecesOf items) ⟨p, .blank, q, 0, 0, []⟩ := by
  have hnone : ∀ (k : Nat) (origin : Pipe), ([] : List Pipe)[k]? ≠ some origin := by simp
  have hproducer : q.producer = (fresh schema targetConfig).producer := by
    rw [eq_fresh_of_build htarget]
  exact ⟨Nat.le_refl _, rfl, covers_built htarget, stands_built htarget,
    fun k origin h => absurd h (hnone k origin), fun k origin h => absurd h (hnone k origin),
    fun k origin h => absurd h (hnone k origin), congrArg Producer.fragmentsWritten hproducer,
    congrArg Producer.messagesWritten hproducer⟩

/-- In every run of a relay the target carries faithfully what was passed on. -/
theorem faithful (h : Relayed schema sourceConfig targetConfig items x) (hs : schema.Accepted)
    (hfits : StreamFits schema items) : x.Faithful schema (piecesOf items) := by
  -- The target has no ledger of its own: it is carried through that of the source.
  induction h with
  | built _ htarget => exact faithful_built htarget
  | runs h hstep hsame ih =>
    have hbooked := h.booked
    exact ih.runs hs hbooked.reachable (hbooked.balances hs hfits).1 hstep hsame
  | reads h hcopied hread ih =>
    have hbooked := h.booked.step (.reads hread)
    obtain ⟨hcovers, hstands⟩ := hbooked.balances hs hfits
    exact ih.reads hcovers hstands (hbooked.reachable.presents hs.compiled) hcopied
  | relays h hprepared hrelay ih =>
    obtain ⟨hcovers, hstands⟩ := h.booked.balances hs hfits
    exact ih.relays hs hfits h.target_reachable hcovers hstands hprepared hrelay
  | @refusesToRelay x h hrefuses ih =>
    have hanswer : (x.target.relayFrom x.source).1 ≠ .ok true := hrefuses.ne_done rfl nofun
    obtain ⟨seen, hglance⟩ := glances_accept hanswer
    have hsame : (x.target.relayFrom x.source).2 = x.target.glance seen := hglance
    refine ih.turns hs hfits h.target_reachable (Nat.le_refl _)
      (.refuses (.relayFrom x.source) nofun hrefuses) ?_ ?_ <;> rw [hsame] <;> rfl
  | @receives x q h hread ih =>
    have hreachable := h.target_reachable
    obtain ⟨hschema, hfollows⟩ := hreachable.follows hs.compiled
    have hproducer := producer_read (hschema ▸ hs.laidOut) hfollows
    rw [hread] at hproducer
    exact ih.turns hs hfits hreachable (Nat.le_succ _) (.reads hread)
      (congrArg Producer.fragmentsWritten hproducer) (congrArg Producer.messagesWritten hproducer)
  | refusesToReceive h hrefuses ih =>
    have hreachable := h.target_reachable
    obtain ⟨hschema, hfollows⟩ := hreachable.follows hs.compiled
    have hproducer := producer_read (hschema ▸ hs.laidOut) hfollows
    exact ih.turns hs hfits hreachable (Nat.le_refl _) (.refuses (.run .read) nofun hrefuses)
      (congrArg Producer.fragmentsWritten hproducer) (congrArg Producer.messagesWritten hproducer)
  | @releases x h ih =>
    have hproducer : x.target.releaseNow.producer = x.target.producer := by
      unfold releaseNow release
      split <;> rfl
    exact ih.turns hs hfits h.target_reachable (Nat.le_refl _) .releases
      (congrArg Producer.fragmentsWritten hproducer) (congrArg Producer.messagesWritten hproducer)

theorem of_booked {p q : Pipe} {b : Ledger} (h : Booked schema sourceConfig items p b)
    (htarget : build schema targetConfig = .ok q) (hread : b.read = 0) :
    Relayed schema sourceConfig targetConfig items ⟨p, b, q, 0, 0, []⟩ := by
  induction h with
  | built hsource => exact .built hsource htarget
  | @step p p' b c h hstep ih =>
    have hsame : c.read = b.read := by
      cases hstep with
      | reads => exact absurd hread (Nat.succ_ne_zero _)
      | opens | writes | publishes | marks | refusesToMark | releases | refuses => rfl
    exact .runs (ih (hsame.symm.trans hread)) hstep hsame

/-- In every run of a relay the consumer of the target never fails: its next read succeeds exactly
if something was passed on that it has not read. What it has prepared is what the consumer of the
source had prepared when it had read as much, in every field; the fields that hold bytes read the
same if they were written. The target counts every piece and every message that was passed on, and
once that is all that the source has published the two have published as much. -/
theorem repeats_source (h : Relayed schema sourceConfig targetConfig items x) (hs : schema.Accepted)
    (hfits : StreamFits schema items) :
    x.target.read.1 = .ok (decide (x.received < x.copied)) ∧
      (x.received ≤ x.copied ∧ x.copied ≤ x.ledger.read ∧ x.origins.length = x.ledger.read) ∧
      (∀ k, x.received = k + 1 → ∃ origin, x.origins[k]? = some origin ∧
        origin.PreparedAlike x.target (x.ledger.written k)) ∧
      x.target.producer.fragmentsWritten = x.copied ∧
      x.target.producer.messagesWritten =
        ((piecesOf items).take x.copied).countP Piece.beginsMessage ∧
      (x.copied = x.ledger.published → x.target.ring.head = x.source.ring.head) := by
  have hreachable := h.target_reachable
  have hmeasured := hreachable.measured hs
  have hordered := hreachable.ordered hs
  obtain ⟨hcovers, -⟩ := h.booked.balances hs hfits
  have hfaithful := h.faithful hs hfits
  have hreceived : x.received ≤ x.copied := hfaithful.covers.read_le
  have hcopied := hfaithful.copied_le
  have hread := hcovers.read_le
  have hopened := Nat.le_trans hcovers.published_le hcovers.opened_le
  obtain ⟨rfl, hfollows⟩ := hreachable.follows hs.compiled
  refine ⟨?_, ⟨hreceived, hcopied, hfaithful.origins⟩, fun k hk => ?_, hfaithful.fragmentsWritten,
    hfaithful.messagesWritten, fun hall => ?_⟩
  · by_cases hlt : x.received < x.copied
    · obtain ⟨piece, hpiece⟩ := hfaithful.covers.exists_piece (k := x.received) hlt
      obtain ⟨q, item, hdone, -⟩ := hfaithful.covers.reads hmeasured hfits hordered hfollows
        hfaithful.stands hlt hpiece
      rw [hdone, decide_eq_true hlt]
    · have hnone : x.received = x.copied := by omega
      rw [decide_eq_false hlt]
      refine read_of_unpublished hmeasured hfollows (Nat.le_of_eq ?_) hordered.seenHead
      rw [hfaithful.covers.published, hfaithful.stands.next]
      exact congrArg (fun k => (x.ledger.mark _ _ k).words) hnone.symm
  · have hlt : k < x.copied := by omega
    have horigin : k < x.origins.length := by
      have := hfaithful.origins
      omega
    obtain ⟨piece, hpiece⟩ := hfaithful.covers.exists_piece (k := k) hlt
    refine ⟨x.origins[k], List.getElem?_eq_getElem horigin, ?_⟩
    obtain ⟨hschema, hpresents, hstands⟩ :=
      hfaithful.origin k _ (List.getElem?_eq_getElem horigin)
    have htarget : x.target.Stands x.target.schema (piecesOf items)
        { x.ledger with read := k + 1 } :=
      hfaithful.stands.of_agrees hk.symm (.refl _ _)
    exact Stands.preparedAlike (b := { x.ledger with read := k + 1 }) hmeasured hstands htarget rfl
      hpiece hschema rfl hpresents (hreachable.presents hs.compiled)
      (hfaithful.covers.bears k piece hpiece hlt (Nat.le_of_eq hk))
      (hfaithful.passed k _ (List.getElem?_eq_getElem horigin) hlt (Nat.le_of_eq hk))
  · rw [hfaithful.covers.published, hcovers.published, ← hall]
    rfl

/-- The message of a book is relayed into larger rings and comes out with its maker's two
letters. -/
theorem repeats_source_book :
    ∃ x, Relayed Schema.book ⟨⟨4, 3⟩, 1⟩ ⟨⟨5, 4⟩, 2⟩ [.message bookQuote, .endOfStream] x ∧
      x.received = 2 ∧ x.target.read.1 = .ok false ∧
      x.target.readBytes ⟨1, 3⟩ 10 = .ok [72, 105] ∧ x.target.producer.fragmentsWritten = 2 ∧
      x.target.producer.messagesWritten = 1 ∧ x.target.ring.head = x.source.ring.head := by
  have haccepted : Schema.book.Accepted :=
    ⟨Schema.compiled_book, by decide, by decide, by decide⟩
  obtain ⟨b, hrun, htallies⟩ := framed_bookPublished.booked haccepted fits_bookQuote
  have hread : b.read = 0 := htallies.read
  have hwritten : b.written 1 5 = true :=
    htallies.written 1 _ _ _ ⟨3, 6, 4, 1, false⟩ 5 rfl (by decide) (by decide) (by decide)
      (by decide)
  have htarget : build Schema.book ⟨⟨5, 4⟩, 2⟩ = .ok (fresh Schema.book ⟨⟨5, 4⟩, 2⟩) :=
    build_eq_fresh (by decide +kernel)
  obtain
    ⟨p₁, q₁, p₂, q₂, q₃, q₄, hread₁, hrelay₁, hread₂, hrelay₂, hread₃, hread₄, hcursor, hdata⟩ :
      ∃ p₁ q₁ p₂ q₂ q₃ q₄ : Pipe, bookPublished.read = (.ok true, p₁) ∧
        (fresh Schema.book ⟨⟨5, 4⟩, 2⟩).relayFrom p₁ = (.ok true, q₁) ∧
        p₁.read = (.ok true, p₂) ∧ q₁.relayFrom p₂ = (.ok true, q₂) ∧
        q₂.read = (.ok true, q₃) ∧ q₃.read = (.ok true, q₄) ∧ p₂.consumer.cursor = some 3 ∧
        p₂.readBytes ⟨1, 3⟩ 10 = .ok [72, 105] :=
    ⟨_, _, _, _, _, _, eq_ok_of_toOption (by decide +kernel), eq_ok_of_toOption (by decide +kernel),
      eq_ok_of_toOption (by decide +kernel), eq_ok_of_toOption (by decide +kernel),
      eq_ok_of_toOption (by decide +kernel), eq_ok_of_toOption (by decide +kernel),
      by decide +kernel, ok_of_toOption (by decide +kernel)⟩
  have hfirst := ((of_booked hrun htarget hread).reads hread.symm hread₁).relays
    (congrArg Nat.succ hread) hrelay₁
  have hsecond := (hfirst.reads (congrArg Nat.succ hread.symm) hread₂).relays
    (congrArg (· + 2) hread) hrelay₂
  have hlast := (hsecond.receives hread₃).receives hread₄
  obtain ⟨hnone, -, halike, hfragments, hmessages, hheads⟩ :=
    repeats_source hlast haccepted fits_bookQuote
  obtain ⟨origin, horigin, hprepared⟩ := halike 1 rfl
  cases horigin
  obtain ⟨hschema, -⟩ := hlast.booked.reachable.follows Schema.compiled_book
  have hfield : p₂.schema.HasField 3 5 ⟨1, 3⟩ .bytes := by
    rw [show p₂.schema = Schema.book from hschema]
    exact ⟨⟨3, 6, 4, 1, false⟩, by decide, by decide, by decide, by decide⟩
  obtain ⟨data, hsource, hcopied⟩ :=
    (hprepared.fields 3 5 ⟨1, 3⟩ .bytes hcursor hfield fun _ => hwritten).bytes rfl 10
  rw [hdata] at hsource
  cases hsource
  exact ⟨_, hlast, rfl, hnone, hcopied, hfragments, hmessages, hheads htallies.published.symm⟩

end Relayed

end FragmentPipe
