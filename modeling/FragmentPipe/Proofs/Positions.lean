import FragmentPipe.Proofs.Order

set_option autoImplicit false

namespace FragmentPipe

namespace Pipe

/-- The producing half goes on: its head does not move back, nothing is published beyond it, and it
counts bytes from positions behind it. -/
structure GoesOn (p q : Pipe) : Prop where
  consumer : q.consumer = p.consumer
  tail : q.ring.tail = p.ring.tail
  capacity : q.ring.capacity = p.ring.capacity
  head : p.producer.head ≤ q.producer.head
  published : q.ring.head = p.ring.head ∨ p.producer.head ≤ q.ring.head
  byteBase : q.producer.byteBase = p.producer.byteBase ∨
    p.producer.head.bytes ≤ q.producer.byteBase ∧ q.producer.byteBase ≤ q.producer.head.bytes
  pending : ∀ opened, q.producer.pending = some opened →
    p.producer.pending = some opened ∨ opened.bytesStart ≤ q.producer.head.bytes

structure Counts (p : Pipe) : Prop where
  byteBase : p.producer.byteBase ≤ p.producer.head.bytes
  pending : ∀ opened, p.producer.pending = some opened →
    opened.bytesStart ≤ p.producer.head.bytes

structure Advances (p q : Pipe) : Prop where
  released : p.ring.tail ≤ q.ring.tail
  prepared : p.consumer.tail ≤ q.consumer.tail
  next : p.consumer.next ≤ q.consumer.next
  published : p.ring.head ≤ q.ring.head
  written : p.producer.head ≤ q.producer.head
  byteBase : p.producer.byteBase ≤ q.producer.byteBase

theorem advances_of_eq {p q : Pipe} (hring : q.ring = p.ring) (hproducer : q.producer = p.producer)
    (htail : q.consumer.tail = p.consumer.tail) (hnext : q.consumer.next = p.consumer.next) :
    p.Advances q := by
  constructor <;> simp only [hring, hproducer, htail, hnext] <;>
    first | exact Mark.le_refl _ | exact Nat.le_refl _

theorem Advances.trans {p q r : Pipe} (hpq : p.Advances q) (hqr : q.Advances r) : p.Advances r where
  released := Mark.le_trans hpq.released hqr.released
  prepared := Mark.le_trans hpq.prepared hqr.prepared
  next := Nat.le_trans hpq.next hqr.next
  published := Mark.le_trans hpq.published hqr.published
  written := Mark.le_trans hpq.written hqr.written
  byteBase := Nat.le_trans hpq.byteBase hqr.byteBase

section Producing

variable {p q r : Pipe}

theorem GoesOn.trans (hpq : p.GoesOn q) (hqr : q.GoesOn r) : p.GoesOn r := by
  refine ⟨hqr.consumer.trans hpq.consumer, hqr.tail.trans hpq.tail,
    hqr.capacity.trans hpq.capacity, Mark.le_trans hpq.head hqr.head, ?_, ?_,
    fun opened hopened => ?_⟩
  · rcases hqr.published with hsame | hall
    · rw [hsame]
      exact hpq.published
    · exact .inr (Mark.le_trans hpq.head hall)
  · have hahead := hpq.head.2
    have hfurther := hqr.head.2
    have hfirst := hpq.byteBase
    have hsecond := hqr.byteBase
    omega
  · rcases hqr.pending opened hopened with hbefore | hnew
    · rcases hpq.pending opened hbefore with hfirst | hlow
      · exact .inl hfirst
      · exact .inr (Nat.le_trans hlow hqr.head.2)
    · exact .inr hnew

theorem GoesOn.counts (h : p.GoesOn q) (hcounts : p.Counts) : q.Counts := by
  have hahead := h.head.2
  refine ⟨?_, fun opened hopened => ?_⟩
  · have hbase := hcounts.byteBase
    have hmoved := h.byteBase
    omega
  · rcases h.pending opened hopened with hbefore | hnew
    · exact Nat.le_trans (hcounts.pending opened hbefore) hahead
    · exact hnew

theorem GoesOn.advances (h : p.GoesOn q) (hordered : p.Ordered) (hcounts : p.Counts) :
    p.Advances q := by
  refine ⟨?_, ?_, ?_, ?_, h.head, ?_⟩
  · rw [h.tail]
    exact Mark.le_refl _
  · rw [h.consumer]
    exact Mark.le_refl _
  · exact Nat.le_of_eq (by rw [h.consumer])
  · rcases h.published with hsame | hall
    · rw [hsame]
      exact Mark.le_refl _
    · exact Mark.le_trans hordered.published hall
  · have hbase := hcounts.byteBase
    have hmoved := h.byteBase
    omega

variable (p)

theorem goesOn_of_ahead (hconsumer : q.consumer = p.consumer) (htail : q.ring.tail = p.ring.tail)
    (hcapacity : q.ring.capacity = p.ring.capacity) (hhead : p.producer.head ≤ q.producer.head)
    (hpublished : q.ring.head = p.ring.head) (hbase : q.producer.byteBase = p.producer.byteBase)
    (hpending : q.producer.pending = p.producer.pending) : p.GoesOn q :=
  ⟨hconsumer, htail, hcapacity, hhead, .inl hpublished, .inl hbase,
    fun _ hopened => .inl (hpending ▸ hopened)⟩

theorem goesOn_glance (seen : Mark) : p.GoesOn (p.glance seen) :=
  p.goesOn_of_ahead rfl rfl rfl (Mark.le_refl _) rfl rfl rfl

theorem goesOn_refl : p.GoesOn p := p.goesOn_of_ahead rfl rfl rfl (Mark.le_refl _) rfl rfl rfl

theorem goesOn_storeTrailer : p.GoesOn p.storeTrailer := by
  refine ⟨by simp, by simp, by simp, ?_, .inl (by simp), .inl (by simp), fun opened hopened => ?_⟩
  · rw [head_storeTrailer]
    exact Mark.le_refl _
  · rw [pending_storeTrailer] at hopened
    cases hopened

theorem goesOn_publish : p.GoesOn p.publish := by
  refine p.goesOn_storeTrailer.trans ⟨rfl, rfl, rfl, Mark.le_refl _, .inr (Mark.le_refl _),
    .inl rfl, fun opened hopened => .inl hopened⟩

theorem goesOn_advanceHead (extent : Mark) : p.GoesOn (p.advanceHead extent) :=
  p.goesOn_of_ahead rfl rfl rfl (Mark.le_add _ _) rfl rfl rfl

theorem goesOn_rebaseWrites : p.GoesOn p.rebaseWrites :=
  ⟨rfl, rfl, rfl, Mark.le_refl _, .inl rfl, .inr ⟨Nat.le_refl _, Nat.le_refl _⟩,
    fun _ hopened => .inl hopened⟩

variable {p}

theorem Opens.goesOn {f : Fragment} {depth : Nat} (h : Opens f depth p q) : p.GoesOn q := by
  have hahead := h.head
  refine ⟨h.consumer, h.ring_ends.2.1, h.ring_ends.2.2.2, ?_, .inl h.ring_ends.1, ?_,
    fun opened hopened => ?_⟩
  · rw [hahead]
    exact Mark.le_add _ _
  · rw [h.byteBase, hahead]
    split
    · exact .inr ⟨Nat.le_refl _, Nat.le_add_right _ _⟩
    · exact .inl rfl
  · rw [h.pending] at hopened
    cases hopened
    rw [hahead]
    exact .inr (Nat.le_add_right _ _)

theorem Marks.goesOn {seen : Mark} (h : Marks seen p q) : p.GoesOn q := by
  have hahead : p.producer.head ≤ q.producer.head := by
    rw [h.head]
    exact Mark.le_add _ _
  refine ⟨h.consumer, h.tail, h.capacity, hahead, .inr ?_, .inr ?_, fun opened hopened => ?_⟩
  · rw [h.published]
    exact hahead
  · rw [h.byteBase]
    exact ⟨Nat.le_refl _, hahead.2⟩
  · rw [h.pending] at hopened
    cases hopened

theorem Appends.goesOn {c : Consumer} {transfer : Ring → Mark → Ring} (h : Appends c transfer p q)
    (htail : ∀ r head, (transfer r head).tail = r.tail)
    (hcapacity : ∀ r head, (transfer r head).capacity = r.capacity) : p.GoesOn q := by
  have hahead : p.producer.head ≤ q.producer.head := by
    rw [h.head]
    exact Mark.le_add _ _
  refine ⟨h.consumer, ?_, ?_, hahead, .inr ?_, ?_, fun opened hopened => ?_⟩
  · rw [h.ring]
    simp [htail]
  · have hsame := hcapacity { p.storeTrailer.ring with head := p.producer.head } p.producer.head
    rw [h.ring]
    exact hsame.trans p.capacity_storeTrailer
  · rw [h.ring]
    exact Mark.le_add _ _
  · rw [h.byteBase]
    split
    · exact .inr ⟨Nat.le_refl _, hahead.2⟩
    · exact .inl rfl
  · rw [h.pending] at hopened
    cases hopened

variable (p)

theorem goesOn_openAt (cursor : Int) (bytes : Nat) : p.GoesOn (p.openAt cursor bytes).2 := by
  rcases p.openAt_cases cursor bytes with
    ⟨-, hopen⟩ | ⟨f, -, ⟨seen, -, -, ⟨-, hopen⟩ | ⟨-, hopen⟩⟩ | ⟨-, hopen⟩⟩ <;> rw [hopen]
  · exact p.goesOn_refl
  · exact (p.goesOn_glance seen).trans (opens_openFragment _ f _).goesOn
  · exact p.goesOn_glance seen
  · exact p.goesOn_glance _

theorem goesOn_storeWords (loc : Locator) (words : List Int32) :
    p.GoesOn (p.storeWords loc words).2 := by
  rcases p.storeWords_cases loc words with ⟨start, -, hstore⟩ | ⟨-, hstore⟩ <;> rw [hstore]
  · exact p.goesOn_of_ahead rfl rfl (p.ring.capacity_setWords _ _) (Mark.le_refl _) rfl rfl rfl
  · exact p.goesOn_refl

theorem goesOn_write (loc : Locator) (value : Value) : p.GoesOn (p.write loc value).2 := by
  cases value with
  | word | long | decimal => exact p.goesOn_storeWords loc _
  | bytes data =>
    show p.GoesOn (p.storeBytes loc data).2
    rcases p.storeBytes_cases loc data with
      ⟨seen, -, -, ⟨cause, hstore⟩ | ⟨-, hstore⟩ | ⟨start, -, -, hstore⟩⟩ | ⟨-, cause, hstore⟩ <;>
      rw [hstore]
    · exact p.goesOn_glance seen
    · exact p.goesOn_glance seen
    · refine p.goesOn_of_ahead rfl rfl ?_ (Mark.le_add _ _) rfl rfl rfl
      exact (Ring.capacity_setWords _ _ _).trans (p.ring.capacity_setBytes _ _)
    · exact p.goesOn_glance _

theorem goesOn_claim (words : Nat) : p.GoesOn (p.claim words).2 := by
  rcases p.claim_cases words with ⟨seen, -, -, hclaim⟩ | ⟨-, cause, hclaim⟩ <;> rw [hclaim]
  · exact (p.goesOn_glance seen).trans ((goesOn_storeTrailer _).trans (goesOn_advanceHead _ _))
  · exact p.goesOn_glance _

theorem goesOn_publishMarker : p.GoesOn p.publishMarker.2 := by
  rcases p.publishMarker_cases with ⟨seen, -, -, hmarker⟩ | ⟨-, hmarker⟩ <;> rw [hmarker]
  · exact (p.marks_publish seen).goesOn
  · exact p.goesOn_storeTrailer.trans (goesOn_glance _ _)

theorem goesOn_roomFor (request : Mark) : p.GoesOn (p.roomFor request).2 := by
  rcases p.roomFor_cases request with ⟨seen, -, -, hroom⟩ | ⟨-, hroom⟩ <;> rw [hroom]
  · exact p.goesOn_glance seen
  · exact p.goesOn_glance _

theorem goesOn_accept (c : Consumer) {transfer : Ring → Mark → Ring}
    (htail : ∀ r head, (transfer r head).tail = r.tail)
    (hcapacity : ∀ r head, (transfer r head).capacity = r.capacity) :
    p.GoesOn (p.accept c transfer).2 := by
  rcases p.accept_cases c transfer with
    ⟨-, haccept⟩ | ⟨-, ⟨seen, -, -, haccept⟩ | ⟨-, haccept⟩⟩ <;> rw [haccept]
  · exact p.goesOn_refl
  · exact (p.goesOn_glance seen).trans ((appends_append _ c transfer).goesOn htail hcapacity)
  · exact p.goesOn_glance _

theorem goesOn_of_isProducing {action : Action} (h : action.isProducing = true) :
    p.GoesOn (p.act action).2 := by
  cases action with
  | relayFrom source =>
    exact p.goesOn_accept _ (fun _ _ => rfl) fun _ _ => by simp [Ring.copyPrepared, Ring.capacity]
  | relayWithin =>
    exact p.goesOn_accept _ (fun _ _ => rfl) fun _ _ => by simp [Ring.repeatPrepared, Ring.capacity]
  | run command =>
    cases command with
    | openAt cursor bytes => exact p.goesOn_openAt cursor bytes
    | write loc value => exact p.goesOn_write loc value
    | storeAhead offset value =>
      exact p.goesOn_of_ahead rfl rfl (p.ring.capacity_setWord _ _) (Mark.le_refl _) rfl rfl rfl
    | claim words => exact p.goesOn_claim words
    | publish => exact p.goesOn_publish
    | publishMarker => exact p.goesOn_publishMarker
    | rebaseWrites => exact p.goesOn_rebaseWrites
    | roomFor request => exact p.goesOn_roomFor request
    | isVisible | read | readMessage | readContinuation | releaseNow | rebaseReads | skip | reset =>
      cases h

end Producing

structure Consumes (p q : Pipe) : Prop where
  producer : q.producer = p.producer
  capacity : q.ring.capacity = p.ring.capacity
  advances : p.Advances q

section Consuming

variable {p q : Pipe}

theorem consumes_of_eq (hring : q.ring = p.ring) (hproducer : q.producer = p.producer)
    (htail : q.consumer.tail = p.consumer.tail) (hnext : q.consumer.next = p.consumer.next) :
    p.Consumes q :=
  ⟨hproducer, by rw [hring], advances_of_eq hring hproducer htail hnext⟩

theorem Unmoved.consumes (h : p.Unmoved q) : p.Consumes q := by
  obtain ⟨seen, -, rfl⟩ := h
  exact consumes_of_eq rfl rfl rfl rfl

theorem Moved.consumes {item : ReadItem} {bytes : Nat} (hordered : p.Ordered)
    (h : p.Moved p.consumer.next item bytes q) : p.Consumes q := by
  obtain ⟨tail, htail, hring⟩ := h.ring
  have hfurther : p.consumer.tail ≤ q.consumer.tail := by
    rw [h.tail]
    exact ⟨hordered.prepared, Nat.le_add_right _ _⟩
  refine ⟨h.producer, by rw [hring]; rfl, ?_, hfurther, ?_, ?_, ?_, ?_⟩
  · rw [hring]
    rcases htail with rfl | rfl
    · exact Mark.le_refl _
    · exact Mark.le_trans hordered.released hfurther
  · rw [h.next]
    exact Nat.le_add_right _ _
  · rw [hring]
    exact Mark.le_refl _
  · rw [h.producer]
    exact Mark.le_refl _
  · exact Nat.le_of_eq (by rw [h.producer])

theorem Attempt.consumes {expected : ReadItem → Prop} {result : Except Fault Bool × Pipe}
    (h : p.Attempt expected result) (hordered : p.Ordered) : p.Consumes result.2 := by
  cases h with
  | nothing hunmoved _ | corrupt hunmoved _ => exact hunmoved.consumes
  | moved _ _ hmoved _ => exact hmoved.consumes hordered

theorem consumes_releaseNow (hordered : p.Ordered) : p.Consumes p.releaseNow := by
  unfold releaseNow release
  split
  · exact ⟨rfl, rfl, hordered.released, Mark.le_refl _, Nat.le_refl _, Mark.le_refl _,
      Mark.le_refl _, Nat.le_refl _⟩
  · exact consumes_of_eq rfl rfl rfl rfl

theorem consumes_skip (hordered : p.Ordered) (words : Nat) : p.Consumes (p.skip words).2 := by
  obtain ⟨q, ⟨seen, -, rfl⟩, ⟨-, hskip⟩ | ⟨cause, hskip⟩⟩ := p.skip_cases words <;> rw [hskip]
  · refine ⟨rfl, rfl, Mark.le_refl _, ⟨?_, Nat.le_add_right _ _⟩, Nat.le_add_right _ _,
      Mark.le_refl _, Mark.le_refl _, Nat.le_refl _⟩
    exact Nat.le_trans hordered.prepared (Nat.le_add_right _ _)
  · exact consumes_of_eq rfl rfl rfl rfl

theorem consumes_isVisible (target : Nat) : p.Consumes (p.isVisible target).2 := by
  obtain ⟨seen, -, ⟨-, hvisible⟩ | ⟨-, -, hvisible⟩⟩ := p.isVisible_cases target <;>
    rw [hvisible] <;> exact consumes_of_eq rfl rfl rfl rfl

theorem consumes_of_not_isProducing (hs : p.schema.LaidOut)
    (hfollows : p.consumer.Follows p.schema) (hordered : p.Ordered) {action : Action}
    (h : action.isProducing = false) (hne : action ≠ .run .reset) :
    p.Consumes (p.act action).2 := by
  cases action with
  | relayFrom source | relayWithin => cases h
  | run command =>
    cases command with
    | openAt | write | storeAhead | claim | publish | publishMarker | rebaseWrites | roomFor =>
      cases h
    | isVisible target => exact consumes_isVisible target
    | read => exact (attempt_read hs hfollows).consumes hordered
    | readMessage => exact (attempt_readMessage hs hfollows).consumes hordered
    | readContinuation =>
      show p.Consumes p.readContinuation.2
      by_cases hdue : p.isMessageDue = true
      · rw [readContinuation_of_due hdue]
        exact consumes_of_eq rfl rfl rfl rfl
      · exact (attempt_readContinuation hs hfollows (by simpa using hdue)).consumes hordered
    | releaseNow => exact consumes_releaseNow hordered
    | rebaseReads => exact consumes_of_eq rfl rfl rfl rfl
    | skip words => exact consumes_skip hordered words
    | reset => exact absurd rfl hne

end Consuming

/-- One action takes no position back, unless it is a reset. -/
theorem advances_act {p : Pipe} (hs : p.schema.LaidOut) (hfollows : p.consumer.Follows p.schema)
    (hordered : p.Ordered) (hcounts : p.Counts) {action : Action} (hne : action ≠ .run .reset) :
    (p.act action).2.Counts ∧ (p.act action).2.ring.capacity = p.ring.capacity ∧
      p.Advances (p.act action).2 := by
  cases hproducing : action.isProducing with
  | true =>
    have hgoesOn := p.goesOn_of_isProducing hproducing
    exact ⟨hgoesOn.counts hcounts, hgoesOn.capacity, hgoesOn.advances hordered hcounts⟩
  | false =>
    have hconsumes := consumes_of_not_isProducing hs hfollows hordered hproducing hne
    exact ⟨⟨hconsumes.producer ▸ hcounts.byteBase, hconsumes.producer ▸ hcounts.pending⟩,
      hconsumes.capacity, hconsumes.advances⟩

theorem Reachable.counts {schema : Schema} {config : Config} {p : Pipe}
    (h : Reachable schema config p) (hs : schema.Accepted) : p.Counts := by
  induction h with
  | built h =>
    rw [eq_fresh_of_build h]
    exact ⟨Nat.le_refl _, fun opened hopened => (nomatch hopened)⟩
  | @act p h action ih =>
    by_cases hreset : action = .run .reset
    · subst hreset
      exact ⟨Nat.le_refl _, fun opened hopened => (nomatch hopened)⟩
    · obtain ⟨rfl, hfollows⟩ := h.follows hs.compiled
      exact (advances_act hs.laidOut hfollows (h.ordered hs) ih hreset).1

theorem Reachable.capacity_eq {schema : Schema} {config : Config} {p : Pipe}
    (h : Reachable schema config p) (hs : schema.Accepted) :
    p.ring.capacity = ⟨config.size.wordCapacity, config.size.byteCapacity⟩ := by
  induction h with
  | built h => exact capacity_of_build h
  | @act p h action ih =>
    by_cases hreset : action = .run .reset
    · subst hreset
      exact p.ring.capacity_clear.trans ih
    · obtain ⟨rfl, hfollows⟩ := h.follows hs.compiled
      exact (advances_act hs.laidOut hfollows (h.ordered hs) (h.counts hs) hreset).2.1.trans ih

inductive Onward (p : Pipe) : Pipe → Prop where
  | refl : Onward p p
  | act {q : Pipe} (h : Onward p q) (action : Action) (hne : action ≠ .run .reset) :
      Onward p (q.act action).2

section Onward

variable {schema : Schema} {config : Config} {p q : Pipe}

theorem Onward.reachable (h : p.Onward q) (hp : Reachable schema config p) :
    Reachable schema config q := by
  induction h with
  | refl => exact hp
  | act _ action _ ih => exact ih.act action

theorem Onward.advances (h : p.Onward q) (hp : Reachable schema config p) (hs : schema.Accepted) :
    p.Advances q := by
  induction h with
  | refl => exact advances_of_eq rfl rfl rfl rfl
  | act hbefore action hne ih =>
    have hreachable := hbefore.reachable hp
    obtain ⟨rfl, hfollows⟩ := hreachable.follows hs.compiled
    exact ih.trans
      (advances_act hs.laidOut hfollows (hreachable.ordered hs) (hreachable.counts hs) hne).2.2

/-- Whether words are visible depends on the published head alone. -/
theorem Ordered.isVisible_iff (h : p.Ordered) (target : Nat) :
    (p.isVisible target).1 = true ↔ target ≤ p.ring.head.words := by
  have hseen := h.seenHead
  obtain ⟨seen, hlast, ⟨hle, hvisible⟩ | ⟨hhead, hlt, hvisible⟩⟩ := p.isVisible_cases target <;>
    rw [hvisible]
  · exact ⟨fun _ => by omega, fun _ => rfl⟩
  · exact ⟨fun hfalse => (nomatch hfalse), fun hle => by omega⟩

end Onward

/-- The positions follow one another on both channels, except that the consumer's bytes are bounded
from below alone. -/
structure Chained (p : Pipe) : Prop where
  words : p.ring.tail.words ≤ p.consumer.tail.words ∧ p.consumer.tail.words ≤ p.consumer.next ∧
    p.consumer.next ≤ p.ring.head.words ∧ p.ring.head.words ≤ p.producer.head.words ∧
    p.producer.head.words ≤ p.ring.tail.words + p.ring.capacity.words
  bytes : p.ring.tail.bytes ≤ p.consumer.tail.bytes ∧ p.ring.head.bytes ≤ p.producer.head.bytes ∧
    p.producer.head.bytes ≤ p.ring.tail.bytes + p.ring.capacity.bytes
  byteBase : p.producer.byteBase ≤ p.producer.head.bytes

/-- The differences of positions that are taken anywhere lose nothing. -/
structure ExactDifferences (p : Pipe) : Prop where
  used : p.ring.tail.words + p.ring.used.words = p.ring.head.words
  free : p.ring.used.words + p.ring.free.words = p.ring.capacity.words
  claimed : p.ring.tail.words + (p.producer.head.words - p.ring.tail.words) = p.producer.head.words
  claimedBytes : p.consumer.tail.bytes ≤ p.ring.head.bytes →
    p.ring.tail.bytes + (p.producer.head.bytes - p.ring.tail.bytes) = p.producer.head.bytes
  extent : p.consumer.tail.words + p.consumer.extent.words = p.consumer.next
  relative : p.producer.byteBase + (p.producer.head.bytes - p.producer.byteBase) =
    p.producer.head.bytes
  trailer : ∀ opened, p.producer.pending = some opened →
    opened.bytesStart + (p.producer.head.bytes - opened.bytesStart) = p.producer.head.bytes
  lastWord : ∀ cursor f, p.schema.fragment? cursor = some f → f.words - 1 + 1 = f.words

theorem chained_of_ordered {p : Pipe} (h : p.Ordered) (hcounts : p.Counts) : p.Chained :=
  ⟨⟨h.released.1, h.prepared, h.unread, h.published.1, h.room.1⟩,
    ⟨h.released.2, h.published.2, h.room.2⟩, hcounts.byteBase⟩

theorem Chained.exactDifferences {p : Pipe} (hs : p.schema.Measured) (h : p.Chained)
    (hcounts : p.Counts) : p.ExactDifferences := by
  obtain ⟨hreleased, hprepared, hunread, hpublished, hroom⟩ := h.words
  have hused : p.ring.tail.words + p.ring.used.words = p.ring.head.words :=
    Nat.add_sub_of_le (by omega)
  obtain ⟨hreleasedBytes, hpublishedBytes, -⟩ := h.bytes
  refine ⟨hused, ?_, Nat.add_sub_of_le (by omega), fun hprepared => Nat.add_sub_of_le (by omega),
    Nat.add_sub_of_le hprepared, Nat.add_sub_of_le h.byteBase,
    fun opened hopened => Nat.add_sub_of_le (hcounts.pending opened hopened),
    fun cursor f hf => Nat.sub_add_cancel ?_⟩
  · exact Nat.add_sub_of_le (by omega)
  · exact Nat.lt_of_le_of_lt (Nat.zero_le _) (hs.base_lt_words hf)

/-- In every state of every run the positions follow one another, so no difference of two of them
falls below zero. Actions other than a reset take none of them back, and words that were visible
once stay visible. -/
theorem positions_chained {schema : Schema} {config : Config} {p : Pipe}
    (h : Reachable schema config p) (hs : schema.Accepted) :
    p.Chained ∧ p.ExactDifferences ∧ ∀ q, p.Onward q → p.Advances q ∧
      ∀ target earlier, (p.isVisible target).1 = true → earlier ≤ target →
        (q.isVisible earlier).1 = true := by
  have hordered := h.ordered hs
  have hcounts := h.counts hs
  have hmeasured := h.measured hs
  have hchained := chained_of_ordered hordered hcounts
  refine ⟨hchained, ?_, fun q hq => ?_⟩
  · obtain ⟨rfl, -⟩ := h.follows hs.compiled
    exact hchained.exactDifferences hmeasured hcounts
  · have hadvances := hq.advances h hs
    refine ⟨hadvances, fun target earlier hvisible hle => ?_⟩
    rw [hordered.isVisible_iff] at hvisible
    rw [((hq.reachable h).ordered hs).isVisible_iff]
    exact Nat.le_trans hle (Nat.le_trans hvisible hadvances.published.1)

/-- A raw block is skipped, read as a message, and what was visible before stays so. -/
theorem positions_chained_book :
    ∃ p q, Reachable Schema.book ⟨⟨4, 3⟩, 1⟩ p ∧ p.Onward q ∧ (p.isVisible 4).1 = true ∧
      q.consumer.next = 5 ∧ p.Chained ∧ p.Advances q ∧ (q.isVisible 3).1 = true := by
  have haccepted : Schema.book.Accepted :=
    ⟨Schema.compiled_book, by decide, by decide, by decide⟩
  have hbuilt : Reachable Schema.book ⟨⟨4, 3⟩, 1⟩ (fresh Schema.book ⟨⟨4, 3⟩, 1⟩) :=
    .built (build_eq_fresh (by decide +kernel))
  have hrun := (hbuilt.act (.run (.claim 5))).act (.run .publish)
  obtain ⟨hchained, -, honward⟩ := positions_chained hrun haccepted
  obtain ⟨hadvances, hvisible⟩ :=
    honward _ ((Onward.refl.act (.run (.skip 1)) nofun).act (.run .read) nofun)
  exact ⟨_, _, hrun, (Onward.refl.act (.run (.skip 1)) nofun).act (.run .read) nofun,
    by decide +kernel, by decide +kernel, hchained, hadvances,
    hvisible 4 3 (by decide +kernel) (by decide)⟩

end Pipe

end FragmentPipe
