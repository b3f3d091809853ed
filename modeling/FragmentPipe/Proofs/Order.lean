import FragmentPipe.Proofs.Reader.Cursor
import FragmentPipe.Proofs.Script.Accepted
import FragmentPipe.Proofs.Writer.Effects

set_option autoImplicit false

namespace FragmentPipe

theorem Mark.le_of_eq_or_eq {a b seen : Mark} (h : seen = a ∨ seen = b) (hab : a ≤ b) :
    seen ≤ b := by
  rcases h with rfl | rfl
  · exact hab
  · exact Mark.le_refl _

namespace Pipe

structure Ordered (p : Pipe) : Prop where
  released : p.ring.tail ≤ p.consumer.tail
  prepared : p.consumer.tail.words ≤ p.consumer.next
  unread : p.consumer.next ≤ p.ring.head.words
  published : p.ring.head ≤ p.producer.head
  room : p.producer.head ≤ p.ring.tail + p.ring.capacity
  seenTail : p.producer.seenTail ≤ p.ring.tail
  seenHead : p.consumer.seenHead ≤ p.ring.head.words
  pending : ∀ opened, p.producer.pending = some opened →
    p.ring.head.words ≤ opened.trailer ∧ opened.trailer < p.producer.head.words

namespace Ordered

variable {p q : Pipe}

theorem tail_le_head (h : p.Ordered) : p.ring.tail.words ≤ p.ring.head.words :=
  Nat.le_trans h.released.1 (Nat.le_trans h.prepared h.unread)

theorem fits (h : p.Ordered) {seen request : Mark}
    (hseen : seen = p.producer.seenTail ∨ seen = p.ring.tail) (hfits : p.FitsBehind seen request) :
    p.producer.head + request ≤ p.ring.tail + p.ring.capacity := by
  have hle := Mark.le_of_eq_or_eq hseen h.seenTail
  unfold FitsBehind at hfits
  rw [Mark.le_iff] at hle hfits ⊢
  simp only [Mark.words_add, Mark.bytes_add] at hfits ⊢
  omega

theorem glance (h : p.Ordered) {seen : Mark}
    (hseen : seen = p.producer.seenTail ∨ seen = p.ring.tail) : (p.glance seen).Ordered :=
  ⟨h.released, h.prepared, h.unread, h.published, h.room, Mark.le_of_eq_or_eq hseen h.seenTail,
    h.seenHead, h.pending⟩

theorem of_unmoved (h : p.Ordered) (hq : p.Unmoved q) : q.Ordered := by
  obtain ⟨seen, hseen, rfl⟩ := hq
  refine ⟨h.released, h.prepared, h.unread, h.published, h.room, h.seenTail, ?_, h.pending⟩
  rcases hseen with rfl | rfl
  · exact h.seenHead
  · exact Nat.le_refl _

theorem withRing (h : p.Ordered) {r : Ring} (hhead : r.head = p.ring.head)
    (htail : r.tail = p.ring.tail) (hcapacity : r.capacity = p.ring.capacity) :
    Ordered { p with ring := r } := by
  constructor <;> simp only [hhead, htail, hcapacity]
  · exact h.released
  · exact h.prepared
  · exact h.unread
  · exact h.published
  · exact h.room
  · exact h.seenTail
  · exact h.seenHead
  · exact h.pending

/-- The producer's head moves ahead, and a trailer waits among the words that it passes. -/
theorem ahead (h : p.Ordered) (hconsumer : q.consumer = p.consumer)
    (htail : q.ring.tail = p.ring.tail) (hcapacity : q.ring.capacity = p.ring.capacity)
    (hhead : q.ring.head = p.ring.head ∨ q.ring.head = q.producer.head)
    (hahead : p.producer.head ≤ q.producer.head)
    (hroom : q.producer.head ≤ p.ring.tail + p.ring.capacity)
    (hseen : q.producer.seenTail ≤ p.ring.tail)
    (hpending : ∀ opened, q.producer.pending = some opened →
      q.ring.head.words ≤ opened.trailer ∧ opened.trailer < q.producer.head.words) :
    q.Ordered := by
  have hpublished := h.published
  have hle : p.ring.head ≤ q.ring.head ∧ q.ring.head ≤ q.producer.head := by
    rcases hhead with hsame | hall
    · rw [hsame]
      exact ⟨Mark.le_refl _, Mark.le_trans hpublished hahead⟩
    · rw [hall]
      exact ⟨Mark.le_trans hpublished hahead, Mark.le_refl _⟩
  refine ⟨?_, ?_, ?_, hle.2, ?_, ?_, ?_, hpending⟩
  · rw [htail, hconsumer]
    exact h.released
  · rw [hconsumer]
    exact h.prepared
  · rw [hconsumer]
    exact Nat.le_trans h.unread hle.1.1
  · rw [htail, hcapacity]
    exact hroom
  · rw [htail]
    exact hseen
  · rw [hconsumer]
    exact Nat.le_trans h.seenHead hle.1.1

theorem storeTrailer (h : p.Ordered) : p.storeTrailer.Ordered := by
  apply h.ahead (by simp) (by simp) (by simp) (.inl (by simp))
  · simp [Mark.le_refl]
  · simpa using h.room
  · simpa using h.seenTail
  · intro opened hopened
    simp at hopened

theorem publish (h : p.Ordered) : p.publish.Ordered := by
  refine h.storeTrailer.ahead rfl rfl rfl (.inr rfl) (Mark.le_refl _) ?_ ?_ ?_
  · exact h.storeTrailer.room
  · exact h.storeTrailer.seenTail
  · intro opened hopened
    have hnone : p.publish.producer.pending = none := p.pending_storeTrailer
    rw [hnone] at hopened
    cases hopened

theorem opens (h : p.Ordered) {f : Fragment} {depth : Nat} (hopens : Opens f depth p q)
    (hroom : p.producer.head + .ofWords f.words ≤ p.ring.tail + p.ring.capacity)
    (hwords : 0 < f.words) : q.Ordered := by
  obtain ⟨hhead, htail, -, hcapacity⟩ := hopens.ring_ends
  apply h.ahead hopens.consumer htail hcapacity (.inl hhead)
  · rw [hopens.head]
    exact Mark.le_add _ _
  · rw [hopens.head]
    exact hroom
  · rw [hopens.seenTail]
    exact h.seenTail
  · intro opened hopened
    have hpublished := h.published.1
    rw [hopens.pending] at hopened
    cases hopened
    rw [hhead, hopens.head, Mark.words_add]
    simp only [Mark.ofWords]
    omega

theorem marks (h : p.Ordered) {seen : Mark} (hmarks : Marks seen p q)
    (hseen : seen ≤ p.ring.tail)
    (hroom : p.producer.head + .ofWords (distance p.schema.markerWords) ≤
      p.ring.tail + p.ring.capacity) : q.Ordered := by
  apply h.ahead hmarks.consumer hmarks.tail hmarks.capacity (.inr hmarks.published)
  · rw [hmarks.head]
    exact Mark.le_add _ _
  · rw [hmarks.head]
    exact hroom
  · rw [hmarks.seenTail]
    exact hseen
  · intro opened hopened
    rw [hmarks.pending] at hopened
    cases hopened

theorem appends (h : p.Ordered) {c : Consumer} {transfer : Ring → Mark → Ring}
    (happends : Appends c transfer p q)
    (hroom : p.producer.head + c.extent ≤ p.ring.tail + p.ring.capacity)
    (htail : ∀ r head, (transfer r head).tail = r.tail)
    (hcapacity : ∀ r head, (transfer r head).capacity = r.capacity) : q.Ordered := by
  refine h.ahead happends.consumer ?_ ?_ (.inr ?_) ?_ ?_ ?_ ?_
  · rw [happends.ring]
    simp [htail]
  · have hsame := hcapacity { p.storeTrailer.ring with head := p.producer.head } p.producer.head
    rw [happends.ring]
    exact hsame.trans p.capacity_storeTrailer
  · rw [happends.ring, happends.head]
  · rw [happends.head]
    exact Mark.le_add _ _
  · rw [happends.head]
    exact hroom
  · rw [happends.seenTail]
    exact h.seenTail
  · intro opened hopened
    rw [happends.pending] at hopened
    cases hopened

theorem advanceHead (h : p.Ordered) {extent : Mark}
    (hroom : p.producer.head + extent ≤ p.ring.tail + p.ring.capacity) :
    (p.advanceHead extent).Ordered := by
  refine h.ahead rfl rfl rfl (.inl rfl) (Mark.le_add _ _) hroom h.seenTail ?_
  intro opened hopened
  obtain ⟨hlow, hhigh⟩ := h.pending opened hopened
  exact ⟨hlow, Nat.lt_of_lt_of_le hhigh (Nat.le_add_right _ _)⟩

theorem begun (h : p.Ordered) {item : ReadItem} {bytes : Nat}
    (hbegun : p.Begun p.consumer.next item bytes q)
    (hvisible : p.consumer.next + item.words p.schema ≤
      max p.consumer.seenHead p.ring.head.words) : q.Ordered := by
  obtain ⟨tail, htail, hring⟩ := hbegun.ring
  have hreleased := h.released
  have hprepared := h.prepared
  have hseenHead := h.seenHead
  have hmoved : p.consumer.tail ≤ q.consumer.tail := by
    rw [hbegun.tail]
    exact ⟨hprepared, Nat.le_add_right _ _⟩
  have htails : p.ring.tail ≤ tail ∧ tail ≤ q.consumer.tail := by
    rcases htail with rfl | rfl
    · exact ⟨Mark.le_refl _, Mark.le_trans hreleased hmoved⟩
    · exact ⟨Mark.le_trans hreleased hmoved, Mark.le_refl _⟩
  have hcapacity : q.ring.capacity = p.ring.capacity := by
    rw [hring]
    rfl
  refine ⟨?_, ?_, ?_, ?_, ?_, ?_, ?_, ?_⟩
  · rw [hring]
    exact htails.2
  · rw [hbegun.next, hbegun.tail]
    exact Nat.le_add_right _ _
  · rw [hring, hbegun.next]
    simp only
    omega
  · rw [hring, hbegun.producer]
    exact h.published
  · rw [hcapacity, hring, hbegun.producer]
    exact Mark.le_trans h.room
      ⟨Nat.add_le_add_right htails.1.1 _, Nat.add_le_add_right htails.1.2 _⟩
  · rw [hring, hbegun.producer]
    exact Mark.le_trans h.seenTail htails.1
  · rw [hring]
    rcases hbegun.seenHead with hsame | hhead
    · rw [hsame]
      exact hseenHead
    · exact Nat.le_of_eq hhead
  · rw [hring, hbegun.producer]
    exact h.pending

theorem release (h : p.Ordered) : p.release.Ordered := by
  have hreleased := h.released
  refine ⟨Mark.le_refl _, h.prepared, h.unread, h.published, ?_, Mark.le_trans h.seenTail hreleased,
    h.seenHead, h.pending⟩
  exact Mark.le_trans h.room
    ⟨Nat.add_le_add_right hreleased.1 _, Nat.add_le_add_right hreleased.2 _⟩

end Ordered

theorem Attempt.ordered {p : Pipe} {expected : ReadItem → Prop}
    {result : Except Fault Bool × Pipe} (h : p.Attempt expected result) (hordered : p.Ordered) :
    result.2.Ordered := by
  cases h with
  | moved _ hprepares hmoved _ => exact hordered.begun hmoved.toBegun hprepares.visible
  | nothing hunmoved _ => exact hordered.of_unmoved hunmoved
  | corrupt hunmoved _ => exact hordered.of_unmoved hunmoved

theorem ordered_openAt {p : Pipe} (hs : p.schema.Measured) (h : p.Ordered) (cursor : Int)
    (bytes : Nat) : (p.openAt cursor bytes).2.Ordered := by
  rcases p.openAt_cases cursor bytes with
    ⟨-, hopen⟩ | ⟨f, hf, ⟨seen, hseen, hfits, ⟨-, hopen⟩ | ⟨-, hopen⟩⟩ | ⟨-, hopen⟩⟩
  · rw [hopen]
    exact h
  · rw [hopen]
    have hroom := h.fits hseen hfits
    apply (h.glance hseen).opens (opens_openFragment _ f _)
    · rw [Mark.le_iff] at hroom ⊢
      simp only [Mark.words_add, Mark.bytes_add] at hroom ⊢
      refine ⟨hroom.1, Nat.le_trans ?_ hroom.2⟩
      exact Nat.add_le_add_left (Nat.zero_le _) _
    · exact Nat.lt_of_le_of_lt (Nat.zero_le _) (hs.base_lt_words hf)
  · rw [hopen]
    exact h.glance hseen
  · rw [hopen]
    exact h.glance (.inr rfl)

theorem ordered_publishMarker {p : Pipe} (h : p.Ordered) : p.publishMarker.2.Ordered := by
  rcases p.publishMarker_cases with ⟨seen, hseen, hfits, hmarker⟩ | ⟨-, hmarker⟩
  · rw [hmarker]
    exact h.marks (p.marks_publish seen) (Mark.le_of_eq_or_eq hseen h.seenTail) (h.fits hseen hfits)
  · rw [hmarker]
    exact h.storeTrailer.glance (.inr (by simp))

theorem ordered_claim {p : Pipe} (h : p.Ordered) (words : Nat) : (p.claim words).2.Ordered := by
  rcases p.claim_cases words with ⟨seen, hseen, hfits, hclaim⟩ | ⟨-, cause, hclaim⟩
  · rw [hclaim]
    apply (h.glance hseen).storeTrailer.advanceHead
    rw [head_storeTrailer, ring_tail_storeTrailer, capacity_storeTrailer]
    exact h.fits hseen hfits
  · rw [hclaim]
    exact h.glance (.inr rfl)

theorem ordered_storeWords {p : Pipe} (h : p.Ordered) (loc : Locator) (words : List Int32) :
    (p.storeWords loc words).2.Ordered := by
  rcases p.storeWords_cases loc words with ⟨start, -, hstore⟩ | ⟨-, hstore⟩
  · rw [hstore]
    exact h.withRing rfl rfl (p.ring.capacity_setWords _ _)
  · rw [hstore]
    exact h

theorem ordered_storeBytes {p : Pipe} (h : p.Ordered) (loc : Locator) (data : List UInt8) :
    (p.storeBytes loc data).2.Ordered := by
  rcases p.storeBytes_cases loc data with
    ⟨seen, hseen, hfits, ⟨cause, hstore⟩ | ⟨-, hstore⟩ | ⟨start, -, -, hstore⟩⟩ |
    ⟨-, cause, hstore⟩
  · rw [hstore]
    exact h.glance hseen
  · rw [hstore]
    exact h.glance hseen
  · rw [hstore]
    have hwritten : ((p.glance seen).appendBytes data).Ordered :=
      ((h.glance hseen).advanceHead (h.fits hseen hfits)).withRing rfl rfl
        (p.ring.capacity_setBytes _ _)
    exact hwritten.withRing rfl rfl (Ring.capacity_setWords _ _ _)
  · rw [hstore]
    exact h.glance (.inr rfl)

theorem ordered_accept {p : Pipe} (h : p.Ordered) (c : Consumer) (transfer : Ring → Mark → Ring)
    (htail : ∀ r head, (transfer r head).tail = r.tail)
    (hcapacity : ∀ r head, (transfer r head).capacity = r.capacity) :
    (p.accept c transfer).2.Ordered := by
  rcases p.accept_cases c transfer with
    ⟨-, haccept⟩ | ⟨-, ⟨seen, hseen, hfits, haccept⟩ | ⟨-, haccept⟩⟩
  · rw [haccept]
    exact h
  · rw [haccept]
    exact (h.glance hseen).appends (appends_append _ c transfer) (h.fits hseen hfits) htail
      hcapacity
  · rw [haccept]
    exact h.glance (.inr rfl)

theorem ordered_roomFor {p : Pipe} (h : p.Ordered) (request : Mark) :
    (p.roomFor request).2.Ordered := by
  rcases p.roomFor_cases request with ⟨seen, hseen, -, hroom⟩ | ⟨-, hroom⟩
  · rw [hroom]
    exact h.glance hseen
  · rw [hroom]
    exact h.glance (.inr rfl)

theorem ordered_isVisible {p : Pipe} (h : p.Ordered) (target : Nat) :
    (p.isVisible target).2.Ordered := by
  obtain ⟨seen, hseen, ⟨-, hvisible⟩ | ⟨-, -, hvisible⟩⟩ := p.isVisible_cases target
  · rw [hvisible]
    exact h.of_unmoved ⟨seen, hseen, rfl⟩
  · rw [hvisible]
    exact h.of_unmoved ⟨seen, hseen, rfl⟩

theorem ordered_releaseNow {p : Pipe} (h : p.Ordered) : p.releaseNow.Ordered := by
  unfold releaseNow
  split
  · exact h.release
  · exact h

theorem ordered_skip {p : Pipe} (h : p.Ordered) (words : Nat) : (p.skip words).2.Ordered := by
  obtain ⟨q, hq, ⟨hvisible, hskip⟩ | ⟨cause, hskip⟩⟩ := p.skip_cases words
  · have hordered := h.of_unmoved hq
    have hprepared := h.prepared
    have hreleased := h.released
    have hseenHead := hordered.seenHead
    rw [hskip]
    obtain ⟨seen, -, rfl⟩ := hq
    refine ⟨?_, Nat.le_refl _, Nat.le_trans hvisible hseenHead, h.published, h.room, h.seenTail,
      hseenHead, h.pending⟩
    apply Mark.le_trans hreleased
    exact ⟨Nat.le_trans hprepared (Nat.le_add_right _ _), Nat.le_add_right _ _⟩
  · rw [hskip]
    exact h.of_unmoved hq

theorem ordered_reset (p : Pipe) : p.reset.Ordered := by
  refine ⟨Mark.le_refl _, Nat.le_refl _, Nat.le_refl _, Mark.le_refl _, ?_, Mark.le_refl _,
    Nat.le_refl _, fun opened h => (nomatch h)⟩
  exact ⟨Nat.zero_le _, Nat.zero_le _⟩

/-- One action keeps the order of the positions. -/
theorem ordered_act {p : Pipe} (hs : p.schema.Measured) (hfollows : p.consumer.Follows p.schema)
    (h : p.Ordered) (action : Action) : (p.act action).2.Ordered := by
  cases action with
  | relayFrom source =>
    refine ordered_accept h _ _ (fun _ _ => rfl) fun r head => ?_
    simp [Ring.copyPrepared, Ring.capacity]
  | relayWithin =>
    refine ordered_accept h _ _ (fun _ _ => rfl) fun r head => ?_
    simp [Ring.repeatPrepared, Ring.capacity]
  | run command =>
    cases command with
    | openAt cursor bytes => exact ordered_openAt hs h cursor bytes
    | write loc value =>
      cases value with
      | word value => exact ordered_storeWords h loc _
      | long value => exact ordered_storeWords h loc _
      | decimal exponent mantissa => exact ordered_storeWords h loc _
      | bytes data => exact ordered_storeBytes h loc data
    | storeAhead offset value => exact h.withRing rfl rfl (p.ring.capacity_setWord _ _)
    | claim words => exact ordered_claim h words
    | publish => exact h.publish
    | publishMarker => exact ordered_publishMarker h
    | rebaseWrites =>
      exact ⟨h.released, h.prepared, h.unread, h.published, h.room, h.seenTail, h.seenHead,
        h.pending⟩
    | roomFor request => exact ordered_roomFor h request
    | isVisible target => exact ordered_isVisible h target
    | read => exact (attempt_read hs.laidOut hfollows).ordered h
    | readMessage => exact (attempt_readMessage hs.laidOut hfollows).ordered h
    | readContinuation =>
      show p.readContinuation.2.Ordered
      by_cases hdue : p.isMessageDue = true
      · rw [readContinuation_of_due hdue]
        exact h
      · exact (attempt_readContinuation hs.laidOut hfollows (by simpa using hdue)).ordered h
    | releaseNow => exact ordered_releaseNow h
    | rebaseReads =>
      exact ⟨h.released, h.prepared, h.unread, h.published, h.room, h.seenTail, h.seenHead,
        h.pending⟩
    | skip words => exact ordered_skip h words
    | reset => exact p.ordered_reset

theorem validate_of_build {schema : Schema} {config : Config} {p : Pipe}
    (h : build schema config = .ok p) : config.validate schema = .ok () := by
  unfold build at h
  split at h
  · assumption
  · cases h

theorem capacity_of_build {schema : Schema} {config : Config} {p : Pipe}
    (h : build schema config = .ok p) :
    p.ring.capacity = ⟨config.size.wordCapacity, config.size.byteCapacity⟩ := by
  rw [eq_fresh_of_build h]
  simp [fresh, Ring.blank, Ring.capacity, Channel.capacity, Channel.blank, RingSize.wordCapacity,
    RingSize.byteCapacity]

theorem Reachable.validate {schema : Schema} {config : Config} {p : Pipe}
    (h : Reachable schema config p) : config.validate schema = .ok () := by
  induction h with
  | built h => exact validate_of_build h
  | act _ _ ih => exact ih

theorem Reachable.measured {schema : Schema} {config : Config} {p : Pipe}
    (h : Reachable schema config p) (hs : schema.Accepted) : schema.Measured :=
  hs.measured h.validate

theorem Reachable.ordered {schema : Schema} {config : Config} {p : Pipe}
    (h : Reachable schema config p) (hs : schema.Accepted) : p.Ordered := by
  have hmeasured := h.measured hs
  induction h with
  | built h =>
    rw [eq_fresh_of_build h]
    exact ⟨Mark.le_refl _, Nat.le_refl _, Nat.le_refl _, Mark.le_refl _,
      ⟨Nat.zero_le _, Nat.zero_le _⟩, Mark.le_refl _, Nat.le_refl _, fun opened h => (nomatch h)⟩
  | act h action ih =>
    obtain ⟨rfl, hfollows⟩ := h.follows hs.compiled
    exact ordered_act hmeasured hfollows ih action

end Pipe

end FragmentPipe
