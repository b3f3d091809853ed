import FragmentPipe.Proofs.Refused.Writes

set_option autoImplicit false

namespace FragmentPipe

namespace Pipe

def gatheredAfter (p : Pipe) (gathered : Nat) (action : Action) : Nat :=
  match action, (p.act action).1 with
  | .run (.openAt _ _), .ok (.flag true) => 0
  | .run (.write _ value), .ok _ => gathered + value.byteLength
  | _, _ => gathered

inductive Gathered (schema : Schema) (config : Config) : Pipe → Nat → Prop where
  | built {p : Pipe} (h : build schema config = .ok p) : Gathered schema config p 0
  | act {p : Pipe} {gathered : Nat} (h : Gathered schema config p gathered) (action : Action) :
      Gathered schema config (p.act action).2 (p.gatheredAfter gathered action)

theorem Gathered.reachable {schema : Schema} {config : Config} {p : Pipe} {gathered : Nat}
    (h : Gathered schema config p gathered) : Reachable schema config p := by
  induction h with
  | built h => exact .built h
  | act _ action ih => exact ih.act action

/-- The open fragment began behind all that is published, and so many bytes follow its start. -/
def Gathers (p : Pipe) (gathered : Nat) : Prop :=
  ∀ opened, p.producer.pending = some opened →
    p.ring.head.bytes ≤ opened.bytesStart ∧ p.producer.head.bytes = opened.bytesStart + gathered

/-- Nothing is open any more, or all that matters to what is open is as it was. -/
def Settles (p q : Pipe) : Prop :=
  q.producer.pending = none ∨ q.producer.pending = p.producer.pending ∧
    q.producer.head.bytes = p.producer.head.bytes ∧ q.ring.head = p.ring.head

section

variable {p q : Pipe} {gathered : Nat}

theorem Settles.gathers (h : p.Settles q) (hgathers : p.Gathers gathered) :
    q.Gathers gathered := by
  intro opened hopened
  rcases h with hnone | ⟨hpending, hbytes, hpublished⟩
  · rw [hnone] at hopened
    cases hopened
  · rw [hpublished, hbytes]
    exact hgathers opened (hpending ▸ hopened)

theorem settles_glance (seen : Mark) : p.Settles (p.glance seen) := .inr ⟨rfl, rfl, rfl⟩

theorem settles_accept (c : Consumer) (transfer : Ring → Mark → Ring) :
    p.Settles (p.accept c transfer).2 := by
  rcases p.accept_cases c transfer with
    ⟨-, haccept⟩ | ⟨-, ⟨seen, -, -, haccept⟩ | ⟨-, haccept⟩⟩ <;> rw [haccept]
  · exact .inr ⟨rfl, rfl, rfl⟩
  · exact .inl (appends_append _ c transfer).pending
  · exact settles_glance _

theorem settles_claim (words : Nat) : p.Settles (p.claim words).2 := by
  rcases p.claim_cases words with ⟨seen, -, -, hclaim⟩ | ⟨-, cause, hclaim⟩ <;> rw [hclaim]
  · exact .inl (p.glance seen).pending_storeTrailer
  · exact settles_glance _

theorem settles_publishMarker : p.Settles p.publishMarker.2 := by
  rcases p.publishMarker_cases with ⟨seen, -, -, hmarker⟩ | ⟨-, hmarker⟩ <;> rw [hmarker]
  · exact .inl (p.marks_publish seen).pending
  · exact .inl p.pending_storeTrailer

theorem settles_roomFor (request : Mark) : p.Settles (p.roomFor request).2 := by
  rcases p.roomFor_cases request with ⟨seen, -, -, hroom⟩ | ⟨-, hroom⟩ <;> rw [hroom] <;>
    exact settles_glance _

theorem settles_of_not_isProducing (hs : p.schema.LaidOut)
    (hfollows : p.consumer.Follows p.schema) (hordered : p.Ordered) {action : Action}
    (h : action.isProducing = false) : p.Settles (p.act action).2 := by
  by_cases hreset : action = .run .reset
  · subst hreset
    exact .inl rfl
  · have hproducer := (consumes_of_not_isProducing hs hfollows hordered h hreset).producer
    refine .inr ⟨by rw [hproducer], by rw [hproducer], ?_⟩
    cases action with
    | relayFrom source | relayWithin => cases h
    | run command =>
      cases command with
      | openAt | write | storeAhead | claim | publish | publishMarker | rebaseWrites | roomFor =>
        cases h
      | isVisible target => exact (p.retains_isVisible target).published
      | read => exact (attempt_read hs hfollows).retains.published
      | readMessage => exact (attempt_readMessage hs hfollows).retains.published
      | readContinuation =>
        show p.readContinuation.2.ring.head = p.ring.head
        by_cases hdue : p.isMessageDue = true
        · rw [readContinuation_of_due hdue]
        · exact (attempt_readContinuation hs hfollows (by simpa using hdue)).retains.published
      | releaseNow => exact p.retains_releaseNow.published
      | rebaseReads => rfl
      | skip words => exact (p.retains_skip words).published
      | reset => exact absurd rfl hreset

theorem gathers_openAt (hordered : p.Ordered) (h : p.Gathers gathered) (cursor : Int)
    (bytes : Nat) : (p.openAt cursor bytes).2.Gathers
      (p.gatheredAfter gathered (.run (.openAt cursor bytes))) := by
  simp only [gatheredAfter, act, run, replying]
  rcases p.openAt_cases cursor bytes with
    ⟨-, hopen⟩ | ⟨f, -, ⟨seen, -, -, ⟨-, hopen⟩ | ⟨-, hopen⟩⟩ | ⟨-, hopen⟩⟩ <;> rw [hopen]
  · exact h
  · have hopens := opens_openFragment (p.glance seen) f (openDepth f)
    intro opened hopened
    rw [hopens.pending] at hopened
    cases hopened
    rw [hopens.ring_ends.1, hopens.head]
    exact ⟨hordered.published.2, rfl⟩
  · exact (settles_glance seen).gathers h
  · exact (settles_glance _).gathers h

theorem gathers_write (h : p.Gathers gathered) (loc : Locator) (value : Value) :
    (p.write loc value).2.Gathers (p.gatheredAfter gathered (.run (.write loc value))) := by
  obtain ⟨hbytes, hpending⟩ := p.head_write loc value
  intro opened hopened
  obtain ⟨hlow, hhead⟩ := h opened (hpending ▸ hopened)
  rw [(p.retains_write loc value).published]
  refine ⟨hlow, ?_⟩
  rw [hbytes, hhead]
  simp only [gatheredAfter, act, run, replying]
  cases hresult : (p.write loc value).1 with
  | error fault => rfl
  | ok => exact Nat.add_assoc _ _ _

/-- One action keeps count of the bytes that the open fragment gathers. -/
theorem gathers_act (hs : p.schema.LaidOut) (hfollows : p.consumer.Follows p.schema)
    (hordered : p.Ordered) (h : p.Gathers gathered) (action : Action) :
    (p.act action).2.Gathers (p.gatheredAfter gathered action) := by
  cases hproducing : action.isProducing with
  | false =>
    have hsettles := settles_of_not_isProducing hs hfollows hordered hproducing
    have hsame : p.gatheredAfter gathered action = gathered := by
      cases action with
      | relayFrom source | relayWithin => rfl
      | run command => cases command <;> first | rfl | cases hproducing
    rw [hsame]
    exact hsettles.gathers h
  | true =>
    cases action with
    | relayFrom source => exact (settles_accept _ _).gathers h
    | relayWithin => exact (settles_accept _ _).gathers h
    | run command =>
      cases command with
      | openAt cursor bytes => exact gathers_openAt hordered h cursor bytes
      | write loc value => exact gathers_write h loc value
      | storeAhead offset value => exact h
      | claim words => exact (settles_claim words).gathers h
      | publish => exact Settles.gathers (.inl p.pending_storeTrailer) h
      | publishMarker => exact settles_publishMarker.gathers h
      | rebaseWrites => exact h
      | roomFor request => exact (settles_roomFor request).gathers h
      | isVisible | read | readMessage | readContinuation | releaseNow | rebaseReads | skip
      | reset => cases hproducing

end

theorem Gathered.gathers {schema : Schema} {config : Config} {p : Pipe} {gathered : Nat}
    (h : Gathered schema config p gathered) (hs : schema.Accepted) : p.Gathers gathered := by
  induction h with
  | built h =>
    rw [eq_fresh_of_build h]
    exact fun opened hopened => (nomatch hopened)
  | act h action ih =>
    obtain ⟨rfl, hfollows⟩ := h.reachable.follows hs.compiled
    exact gathers_act hs.laidOut hfollows (h.reachable.ordered hs) ih action

end Pipe

end FragmentPipe
