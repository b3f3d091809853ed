import FragmentPipe.Proofs.Interchange.Reset
import FragmentPipe.Proofs.Interchange.Unpublished
import FragmentPipe.Proofs.Refused.Marker

set_option autoImplicit false

/-!
# Bytes that are reserved

A fragment can be opened with room for some bytes. Nothing records that room. It is there because
the tail never moves back, the tail that the producer has seen follows it, and no operation but the
opening of a fragment, a copy and the bytes themselves takes any of it. So all bytes up to the
number asked for are taken, whatever the consumer does in between, and their spans follow one
another from where the fragment was opened.
-/
namespace FragmentPipe

namespace Pipe

/-- What the producer has seen of the tail, the tail and the consumer follow one another, whatever
the script is. -/
structure Trails (p : Pipe) : Prop where
  seen : p.producer.seenTail ≤ p.ring.tail
  released : p.ring.tail ≤ p.consumer.tail
  prepared : p.consumer.tail.words ≤ p.consumer.next
  counted : p.producer.byteBase ≤ p.producer.head.bytes

structure Drains (p q : Pipe) : Prop where
  producer : q.producer = p.producer
  capacity : q.ring.capacity = p.ring.capacity
  tail : p.ring.tail ≤ q.ring.tail
  released : q.ring.tail ≤ q.consumer.tail
  prepared : q.consumer.tail.words ≤ q.consumer.next

section Draining

variable {p q : Pipe}

theorem Trails.drains_of_eq (h : p.Trails) (hring : q.ring = p.ring)
    (hproducer : q.producer = p.producer) (htail : q.consumer.tail = p.consumer.tail)
    (hnext : q.consumer.next = p.consumer.next) : p.Drains q := by
  refine ⟨hproducer, by rw [hring], by rw [hring]; exact Mark.le_refl _, ?_, ?_⟩
  · rw [hring, htail]
    exact h.released
  · rw [htail, hnext]
    exact h.prepared

theorem Trails.drains_of_unmoved (h : p.Trails) (hunmoved : p.Unmoved q) : p.Drains q := by
  obtain ⟨seen, -, rfl⟩ := hunmoved
  exact h.drains_of_eq rfl rfl rfl rfl

theorem Trails.drains_of_prepares (h : p.Trails) {item : ReadItem} {bytes : Nat}
    (hprepares : p.Prepares p.consumer.next item bytes q) : p.Drains q := by
  have hbegun := hprepares.begun
  obtain ⟨tail, htail, hring⟩ := hbegun.ring
  have hfurther : p.consumer.tail ≤ q.consumer.tail := by
    rw [hbegun.tail]
    exact ⟨h.prepared, Nat.le_add_right _ _⟩
  have hreleased : p.ring.tail ≤ q.consumer.tail := Mark.le_trans h.released hfurther
  refine ⟨hbegun.producer, by rw [hring]; rfl, ?_, ?_, ?_⟩
  · rw [hring]
    rcases htail with rfl | rfl
    · exact Mark.le_refl _
    · exact hreleased
  · rw [hring]
    rcases htail with rfl | rfl
    · exact hreleased
    · exact Mark.le_refl _
  · rw [hbegun.tail, hbegun.next]
    exact Nat.le_add_right _ _

theorem Trails.drains_readMessage (h : p.Trails) : p.Drains p.readMessage.2 := by
  rcases p.readMessage_cases with ⟨item, bytes, q, -, hprepares, hread⟩ |
    ⟨q, hunmoved, ⟨-, hread⟩ | ⟨cause, -, hread⟩ | ⟨-, hread⟩⟩ <;> rw [hread]
  · exact h.drains_of_prepares hprepares
  all_goals exact h.drains_of_unmoved hunmoved

theorem Trails.drains_readContinuation (h : p.Trails) : p.Drains p.readContinuation.2 := by
  rcases p.readContinuation_cases with ⟨item, bytes, q, -, hprepares, hread⟩ | ⟨-, hread⟩ |
    ⟨q, hunmoved, ⟨-, hread⟩ | ⟨cause, -, hread⟩ | ⟨-, hread⟩⟩ <;> rw [hread]
  · exact h.drains_of_prepares hprepares
  · exact h.drains_of_eq rfl rfl rfl rfl
  all_goals exact h.drains_of_unmoved hunmoved

theorem Trails.drains_releaseNow (h : p.Trails) : p.Drains p.releaseNow := by
  unfold releaseNow release
  split
  · exact ⟨rfl, rfl, h.released, Mark.le_refl _, h.prepared⟩
  · exact h.drains_of_eq rfl rfl rfl rfl

theorem Trails.drains_skip (h : p.Trails) (words : Nat) : p.Drains (p.skip words).2 := by
  obtain ⟨q, hunmoved, ⟨-, hskip⟩ | ⟨cause, hskip⟩⟩ := p.skip_cases words <;> rw [hskip]
  · obtain ⟨seen, -, rfl⟩ := hunmoved
    have hfurther : p.consumer.tail.words ≤ p.consumer.next + words :=
      Nat.le_trans h.prepared (Nat.le_add_right _ _)
    exact ⟨rfl, rfl, Mark.le_refl _, ⟨Nat.le_trans h.released.1 hfurther,
      Nat.le_trans h.released.2 (Nat.le_add_right _ _)⟩, Nat.le_refl _⟩
  · exact h.drains_of_unmoved hunmoved

theorem Trails.drains_act (h : p.Trails) {action : Action} (hconsuming : action.isProducing = false)
    (hne : action ≠ .run .reset) : p.Drains (p.act action).2 := by
  cases action with
  | relayFrom source | relayWithin => cases hconsuming
  | run command =>
    cases command with
    | openAt | write | storeAhead | claim | publish | publishMarker | rebaseWrites | roomFor =>
      cases hconsuming
    | isVisible target => exact h.drains_of_unmoved (unmoved_isVisible target)
    | read =>
      show p.Drains p.read.2
      unfold read
      split
      · exact h.drains_readMessage
      · exact h.drains_readContinuation
    | readMessage => exact h.drains_readMessage
    | readContinuation => exact h.drains_readContinuation
    | releaseNow => exact h.drains_releaseNow
    | rebaseReads => exact h.drains_of_eq rfl rfl rfl rfl
    | skip words => exact h.drains_skip words
    | reset => exact absurd rfl hne

end Draining

def Looks (p q : Pipe) : Prop :=
  q.producer.seenTail = p.producer.seenTail ∨ q.producer.seenTail = p.ring.tail

section Seeing

variable (p : Pipe)

theorem looks_glance {seen : Mark} (h : seen = p.producer.seenTail ∨ seen = p.ring.tail) :
    p.Looks (p.glance seen) := h

theorem looks_accept (c : Consumer) (transfer : Ring → Mark → Ring) :
    p.Looks (p.accept c transfer).2 := by
  rcases p.accept_cases c transfer with
    ⟨-, haccept⟩ | ⟨-, ⟨seen, hseen, -, haccept⟩ | ⟨-, haccept⟩⟩ <;> rw [haccept]
  · exact .inl rfl
  · unfold Looks
    rw [(appends_append (p.glance seen) c transfer).seenTail]
    exact hseen
  · exact .inr rfl

theorem looks_openAt (cursor : Int) (bytes : Nat) : p.Looks (p.openAt cursor bytes).2 := by
  rcases p.openAt_cases cursor bytes with
    ⟨-, hopen⟩ | ⟨f, -, ⟨seen, hseen, -, ⟨-, hopen⟩ | ⟨-, hopen⟩⟩ | ⟨-, hopen⟩⟩ <;> rw [hopen]
  · exact .inl rfl
  · unfold Looks
    rw [(opens_openFragment (p.glance seen) f (openDepth f)).seenTail]
    exact hseen
  · exact p.looks_glance hseen
  · exact .inr rfl

theorem looks_write (loc : Locator) (value : Value) : p.Looks (p.write loc value).2 := by
  have hwords : ∀ words, p.Looks (p.storeWords loc words).2 := by
    intro words
    rcases p.storeWords_cases loc words with ⟨start, -, hstore⟩ | ⟨-, hstore⟩ <;> rw [hstore] <;>
      exact .inl rfl
  cases value with
  | word | long | decimal => exact hwords _
  | bytes data =>
    show p.Looks (p.storeBytes loc data).2
    rcases p.storeBytes_cases loc data with
      ⟨seen, hseen, -, ⟨cause, hstore⟩ | ⟨-, hstore⟩ | ⟨start, -, -, hstore⟩⟩ |
      ⟨-, cause, hstore⟩ <;> rw [hstore]
    · exact p.looks_glance hseen
    · exact p.looks_glance hseen
    · exact hseen
    · exact .inr rfl

theorem looks_claim (words : Nat) : p.Looks (p.claim words).2 := by
  rcases p.claim_cases words with ⟨seen, hseen, -, hclaim⟩ | ⟨-, cause, hclaim⟩ <;> rw [hclaim]
  · unfold Looks
    rw [show ((p.glance seen).storeTrailer.advanceHead (.ofWords words)).producer.seenTail = seen
      from (p.glance seen).seenTail_storeTrailer]
    exact hseen
  · exact .inr rfl

theorem looks_publishMarker : p.Looks p.publishMarker.2 := by
  rcases p.publishMarker_cases with ⟨seen, hseen, -, hmarker⟩ | ⟨-, hmarker⟩ <;> rw [hmarker]
  · unfold Looks
    rw [(p.marks_publish seen).seenTail]
    exact hseen
  · exact .inr rfl

theorem looks_roomFor (request : Mark) : p.Looks (p.roomFor request).2 := by
  rcases p.roomFor_cases request with ⟨seen, hseen, -, hroom⟩ | ⟨-, hroom⟩ <;> rw [hroom]
  · exact p.looks_glance hseen
  · exact .inr rfl

theorem looks_of_isProducing {action : Action} (h : action.isProducing = true) :
    p.Looks (p.act action).2 := by
  cases action with
  | relayFrom source | relayWithin => exact p.looks_accept _ _
  | run command =>
    cases command with
    | openAt cursor bytes => exact p.looks_openAt cursor bytes
    | write loc value => exact p.looks_write loc value
    | claim words => exact p.looks_claim words
    | publish => exact .inl p.seenTail_storeTrailer
    | publishMarker => exact p.looks_publishMarker
    | roomFor request => exact p.looks_roomFor request
    | storeAhead | rebaseWrites => exact .inl rfl
    | isVisible | read | readMessage | readContinuation | releaseNow | rebaseReads | skip | reset =>
      cases h

end Seeing

section Trailing

variable {p : Pipe}

theorem Trails.act (h : p.Trails) (action : Action) : (p.act action).2.Trails := by
  cases hproducing : action.isProducing with
  | true =>
    have hgoesOn := p.goesOn_of_isProducing hproducing
    have hbase := hgoesOn.byteBase
    have hahead := hgoesOn.head.2
    have hcounted := h.counted
    refine ⟨?_, ?_, ?_, by omega⟩
    · rw [hgoesOn.tail]
      rcases p.looks_of_isProducing hproducing with hseen | hseen <;> rw [hseen]
      · exact h.seen
      · exact Mark.le_refl _
    · rw [hgoesOn.tail, hgoesOn.consumer]
      exact h.released
    · rw [hgoesOn.consumer]
      exact h.prepared
  | false =>
    by_cases hreset : action = .run .reset
    · subst hreset
      exact ⟨Mark.le_refl _, Mark.le_refl _, Nat.le_refl _, Nat.le_refl _⟩
    · have hdrains := h.drains_act hproducing hreset
      refine ⟨?_, hdrains.released, hdrains.prepared, ?_⟩ <;> rw [hdrains.producer]
      · exact Mark.le_trans h.seen hdrains.tail
      · exact h.counted

end Trailing

/-- Actions that leave reserved bytes alone: no other fragment is opened or copied, no marker is
written, the spans of the message stay counted from where they were, and nothing is reset. -/
def Spares (p : Pipe) : Action → Prop
  | .run (.openAt cursor bytes) => (p.openAt cursor bytes).1 ≠ .ok true
  | .run .publishMarker => p.publishMarker.1 = false
  | .relayFrom source => (p.relayFrom source).1 ≠ .ok true
  | .relayWithin => p.relayWithin.1 ≠ .ok true
  | .run .rebaseWrites | .run .reset => False
  | _ => True

def takes (p : Pipe) (action : Action) : Nat :=
  match action, (p.act action).1 with
  | .run (.write _ value), .ok _ => value.byteLength
  | _, _ => 0

inductive Spending (p : Pipe) : Pipe → Nat → Prop where
  | refl : Spending p p 0
  | act {q : Pipe} {taken : Nat} (h : Spending p q taken) (action : Action)
      (hspares : q.Spares action) : Spending p (q.act action).2 (taken + q.takes action)

/-- One action of the producer on reserved bytes: so many of them are taken, and all words that are
claimed fit behind the tail that is seen. -/
structure Draws (taken : Nat) (p q : Pipe) : Prop where
  bytes : q.producer.head.bytes = p.producer.head.bytes + taken
  byteBase : q.producer.byteBase = p.producer.byteBase
  words : q.producer.head.words = p.producer.head.words ∨
    q.producer.head.words ≤ q.producer.seenTail.words + p.ring.capacity.words

section Spending

variable (p : Pipe)

variable {p} in
theorem draws_of_eq {q : Pipe} (hhead : q.producer.head = p.producer.head)
    (hbase : q.producer.byteBase = p.producer.byteBase) : Draws 0 p q :=
  ⟨congrArg Mark.bytes hhead, hbase, .inl (congrArg Mark.words hhead)⟩

theorem draws_openAt {cursor : Int} {bytes : Nat} (h : (p.openAt cursor bytes).1 ≠ .ok true) :
    Draws 0 p (p.openAt cursor bytes).2 := by
  rcases p.openAt_cases cursor bytes with
    ⟨-, hopen⟩ | ⟨f, -, ⟨seen, -, -, ⟨-, hopen⟩ | ⟨-, hopen⟩⟩ | ⟨-, hopen⟩⟩ <;> rw [hopen] at h ⊢
  · exact draws_of_eq rfl rfl
  · exact absurd rfl h
  · exact draws_of_eq rfl rfl
  · exact draws_of_eq rfl rfl

theorem draws_accept {c : Consumer} {transfer : Ring → Mark → Ring}
    (h : (p.accept c transfer).1 ≠ .ok true) : Draws 0 p (p.accept c transfer).2 := by
  rcases p.accept_cases c transfer with
    ⟨-, haccept⟩ | ⟨-, ⟨seen, -, -, haccept⟩ | ⟨-, haccept⟩⟩ <;> rw [haccept] at h ⊢
  · exact draws_of_eq rfl rfl
  · exact absurd rfl h
  · exact draws_of_eq rfl rfl

theorem draws_claim (words : Nat) : Draws 0 p (p.claim words).2 := by
  rcases p.claim_cases words with ⟨seen, -, hfits, hclaim⟩ | ⟨-, cause, hclaim⟩ <;> rw [hclaim]
  · have hhead := (p.glance seen).head_storeTrailer
    have hbytes : (p.glance seen).storeTrailer.producer.head.bytes = p.producer.head.bytes :=
      congrArg Mark.bytes hhead
    refine ⟨hbytes, (p.glance seen).byteBase_storeTrailer, .inr ?_⟩
    show (p.glance seen).storeTrailer.producer.head.words + words ≤
      (p.glance seen).storeTrailer.producer.seenTail.words + p.ring.capacity.words
    rw [hhead, seenTail_storeTrailer]
    exact hfits.1
  · exact draws_of_eq rfl rfl

theorem draws_publishMarker (h : p.publishMarker.1 = false) : Draws 0 p p.publishMarker.2 := by
  rw [publishMarker_of_refused h]
  exact draws_of_eq p.head_storeTrailer p.byteBase_storeTrailer

theorem draws_write (loc : Locator) (value : Value) :
    Draws (p.takes (.run (.write loc value))) p (p.write loc value).2 := by
  have hwords : ∀ words, (p.storeWords loc words).2.producer = p.producer := by
    intro words
    rcases p.storeWords_cases loc words with ⟨start, -, hstore⟩ | ⟨-, hstore⟩ <;> rw [hstore]
  have hrest : (p.write loc value).2.producer.byteBase = p.producer.byteBase ∧
      (p.write loc value).2.producer.head.words = p.producer.head.words := by
    cases value with
    | word | long | decimal => exact ⟨congrArg _ (hwords _), congrArg (·.head.words) (hwords _)⟩
    | bytes data =>
      show (p.storeBytes loc data).2.producer.byteBase = _ ∧
        (p.storeBytes loc data).2.producer.head.words = _
      rcases p.storeBytes_cases loc data with
        ⟨seen, -, -, ⟨cause, hstore⟩ | ⟨-, hstore⟩ | ⟨start, -, -, hstore⟩⟩ |
        ⟨-, cause, hstore⟩ <;> rw [hstore] <;> exact ⟨rfl, rfl⟩
  refine ⟨?_, hrest.1, .inl hrest.2⟩
  rw [(p.head_write loc value).1]
  simp only [takes, act, run, replying]
  cases (p.write loc value).1 <;> rfl

variable {p}

theorem draws_act {action : Action} (hproducing : action.isProducing = true)
    (hspares : p.Spares action) : Draws (p.takes action) p (p.act action).2 := by
  cases action with
  | relayFrom source => exact p.draws_accept hspares
  | relayWithin => exact p.draws_accept hspares
  | run command =>
    cases command with
    | openAt cursor bytes => exact p.draws_openAt hspares
    | write loc value => exact p.draws_write loc value
    | storeAhead offset value => exact draws_of_eq rfl rfl
    | claim words => exact p.draws_claim words
    | publish => exact draws_of_eq p.head_storeTrailer p.byteBase_storeTrailer
    | publishMarker => exact p.draws_publishMarker hspares
    | roomFor request =>
      show Draws 0 p (p.roomFor request).2
      rcases p.roomFor_cases request with ⟨seen, -, -, hroom⟩ | ⟨-, hroom⟩ <;> rw [hroom] <;>
        exact draws_of_eq rfl rfl
    | rebaseWrites => exact hspares.elim
    | isVisible | read | readMessage | readContinuation | releaseNow | rebaseReads | skip | reset =>
      cases hproducing

end Spending

/-- How a reservation stands after some of its bytes are taken. -/
structure Reserves (opened : Pipe) (bytes taken : Nat) (p : Pipe) : Prop where
  head : p.producer.head.bytes = opened.producer.head.bytes + taken
  byteBase : p.producer.byteBase = opened.producer.byteBase
  words : p.producer.head.words ≤ p.producer.seenTail.words + p.ring.capacity.words
  bytes : opened.producer.head.bytes + bytes ≤ p.producer.seenTail.bytes + p.ring.capacity.bytes

section Reserving

variable {p q opened : Pipe} {bytes taken : Nat}

/-- One action takes what it takes, and the reservation stands. -/
theorem Reserves.act (h : opened.Reserves bytes taken p) (htrails : p.Trails) {action : Action}
    (hspares : p.Spares action) :
    opened.Reserves bytes (taken + p.takes action) (p.act action).2 := by
  obtain ⟨hhead, hbase, hwords, hbytes⟩ := h
  cases hproducing : action.isProducing with
  | true =>
    -- Words may be claimed, but none beyond the tail that is seen by then.
    obtain ⟨hdrawn, hkept, hclaimed⟩ := draws_act hproducing hspares
    have hcapacity := (p.goesOn_of_isProducing hproducing).capacity
    have hseen : p.producer.seenTail ≤ (p.act action).2.producer.seenTail := by
      rcases p.looks_of_isProducing hproducing with hsame | htail
      · rw [hsame]
        exact Mark.le_refl _
      · rw [htail]
        exact htrails.seen
    obtain ⟨hseenWords, hseenBytes⟩ := hseen
    refine ⟨?_, hkept.trans hbase, ?_, ?_⟩
    · rw [hdrawn, hhead, Nat.add_assoc]
    · rw [hcapacity]
      omega
    · rw [hcapacity]
      omega
  | false =>
    have hreset : action ≠ .run .reset := by
      rintro rfl
      exact hspares
    -- The reservation is about what the producer has seen, and that stays as it is.
    have hdrains := htrails.drains_act hproducing hreset
    have hnone : p.takes action = 0 := by
      cases action with
      | relayFrom source | relayWithin => rfl
      | run command => cases command <;> first | rfl | cases hproducing
    rw [hnone]
    constructor <;> rw [hdrains.producer]
    · exact hhead
    · exact hbase
    · rw [hdrains.capacity]
      exact hwords
    · rw [hdrains.capacity]
      exact hbytes

theorem Spending.reachable {schema : Schema} {config : Config} (h : q.Spending p taken)
    (hq : Reachable schema config q) : Reachable schema config p := by
  induction h with
  | refl => exact hq
  | act _ action _ ih => exact ih.act action

/-- Reserved bytes that are left fit behind the tail that is seen, so it is not looked up. -/
theorem Reserves.roomFor (h : opened.Reserves bytes taken p) {length : Nat}
    (hle : taken + length ≤ bytes) : p.roomFor (.ofBytes length) = (true, p) := by
  have hfits : p.producer.fits p.ring.capacity (.ofBytes length) = true := by
    obtain ⟨hhead, -, hwords, hbytes⟩ := h
    refine decide_eq_true ⟨hwords, ?_⟩
    show p.producer.head.bytes + length ≤ p.producer.seenTail.bytes + p.ring.capacity.bytes
    omega
  unfold Pipe.roomFor
  rw [if_pos hfits]

section

variable {r : Pipe} {loc : Locator} {data : List UInt8}

end

end Reserving

section Honouring

variable {schema : Schema} {config : Config} {p q r : Pipe}

end Honouring

end Pipe

end FragmentPipe
