import FragmentPipe.Proofs.Reader.Cursor

set_option autoImplicit false

/-!
# What a refused action leaves behind

An action is refused if it fails or answers that there is no room, or nothing to read. Then neither
half has moved and nothing is stored; at most one half has seen more of the other. A marker that
finds no room is the exception: it completes what was open all the same.
-/
namespace FragmentPipe

def Action.isRequest : Action → Bool
  | .run (.openAt _ _) | .run (.claim _) | .run (.write _ _) | .relayFrom _ | .relayWithin => true
  | _ => false

def Action.isAttempt : Action → Bool
  | .run .read | .run .readMessage | .run .readContinuation | .run (.skip _) => true
  | _ => false

namespace Pipe

/-- The action did not do what it was called for. -/
def Refuses (p : Pipe) (action : Action) : Prop :=
  (p.act action).1 = .ok (.flag false) ∨ ∃ fault, (p.act action).1 = .error fault

def Idles (p q : Pipe) : Prop := (∃ seen, q = p.glance seen) ∨ p.Unmoved q

section Refusals

variable {p : Pipe}

theorem glances_openAt {cursor : Int} {bytes : Nat}
    (h : (p.openAt cursor bytes).1 ≠ .ok true) :
    ∃ seen, (p.openAt cursor bytes).2 = p.glance seen := by
  rcases p.openAt_cases cursor bytes with
    ⟨-, hopen⟩ | ⟨f, -, ⟨seen, -, -, ⟨-, hopen⟩ | ⟨-, hopen⟩⟩ | ⟨-, hopen⟩⟩ <;> rw [hopen] at h ⊢
  · exact ⟨p.producer.seenTail, rfl⟩
  · exact absurd rfl h
  · exact ⟨seen, rfl⟩
  · exact ⟨_, rfl⟩

theorem glances_storeWords {loc : Locator} {words : List Int32}
    (h : (p.storeWords loc words).1 ≠ .ok ()) :
    ∃ seen, (p.storeWords loc words).2 = p.glance seen := by
  rcases p.storeWords_cases loc words with ⟨start, -, hstore⟩ | ⟨-, hstore⟩ <;> rw [hstore] at h ⊢
  · exact absurd rfl h
  · exact ⟨p.producer.seenTail, rfl⟩

theorem glances_write {loc : Locator} {value : Value} (h : (p.write loc value).1 ≠ .ok ()) :
    ∃ seen, (p.write loc value).2 = p.glance seen := by
  cases value with
  | word | long | decimal => exact glances_storeWords h
  | bytes data =>
    change (p.storeBytes loc data).1 ≠ .ok () at h
    show ∃ seen, (p.storeBytes loc data).2 = p.glance seen
    rcases p.storeBytes_cases loc data with
      ⟨seen, -, -, ⟨cause, hstore⟩ | ⟨-, hstore⟩ | ⟨start, -, -, hstore⟩⟩ | ⟨-, cause, hstore⟩ <;>
      rw [hstore] at h ⊢
    · exact ⟨seen, rfl⟩
    · exact ⟨seen, rfl⟩
    · exact absurd rfl h
    · exact ⟨_, rfl⟩

theorem glances_claim {words : Nat} (h : (p.claim words).1 ≠ .ok ()) :
    ∃ seen, (p.claim words).2 = p.glance seen := by
  rcases p.claim_cases words with ⟨seen, -, -, hclaim⟩ | ⟨-, cause, hclaim⟩ <;> rw [hclaim] at h ⊢
  · exact absurd rfl h
  · exact ⟨_, rfl⟩

theorem glances_accept {c : Consumer} {transfer : Ring → Mark → Ring}
    (h : (p.accept c transfer).1 ≠ .ok true) : ∃ seen, (p.accept c transfer).2 = p.glance seen := by
  rcases p.accept_cases c transfer with
    ⟨-, haccept⟩ | ⟨-, ⟨seen, -, -, haccept⟩ | ⟨-, haccept⟩⟩ <;> rw [haccept] at h ⊢
  · exact ⟨p.producer.seenTail, rfl⟩
  · exact absurd rfl h
  · exact ⟨_, rfl⟩

theorem glances_roomFor (request : Mark) : ∃ seen, (p.roomFor request).2 = p.glance seen := by
  rcases p.roomFor_cases request with ⟨seen, -, -, hroom⟩ | ⟨-, hroom⟩ <;> rw [hroom]
  · exact ⟨seen, rfl⟩
  · exact ⟨_, rfl⟩

theorem unmoved_isVisible (target : Nat) : p.Unmoved (p.isVisible target).2 := by
  obtain ⟨seen, hseen, ⟨-, hvisible⟩ | ⟨-, -, hvisible⟩⟩ := p.isVisible_cases target <;>
    rw [hvisible] <;> exact ⟨seen, hseen, rfl⟩

theorem unmoved_skip {words : Nat} (h : (p.skip words).1 ≠ .ok ()) :
    p.Unmoved (p.skip words).2 := by
  obtain ⟨q, hunmoved, ⟨-, hskip⟩ | ⟨cause, hskip⟩⟩ := p.skip_cases words <;> rw [hskip] at h ⊢
  · exact absurd rfl h
  · exact hunmoved

theorem Attempt.unmoved {expected : ReadItem → Prop} {result : Except Fault Bool × Pipe}
    (h : p.Attempt expected result) (hrefused : result.1 ≠ .ok true) : p.Unmoved result.2 := by
  cases h with
  | moved => exact absurd rfl hrefused
  | nothing hunmoved _ | corrupt hunmoved _ => exact hunmoved

theorem unmoved_readContinuation (hs : p.schema.LaidOut) (hfollows : p.consumer.Follows p.schema)
    (h : p.readContinuation.1 ≠ .ok true) : p.Unmoved p.readContinuation.2 := by
  by_cases hdue : p.isMessageDue = true
  · rw [readContinuation_of_due hdue]
    exact ⟨p.consumer.seenHead, .inl rfl, rfl⟩
  · exact (attempt_readContinuation hs hfollows (by simpa using hdue)).unmoved h

theorem Refuses.ne_done {α : Type} {result : Except Fault α × Pipe} {reply : α → Reply}
    {action : Action} (h : p.Refuses action) (hact : p.act action = replying reply result)
    {answer : α} (hanswer : reply answer ≠ .flag false) : result.1 ≠ .ok answer := by
  intro hdone
  unfold Refuses at h
  rw [hact] at h
  simp only [replying, hdone, Except.map] at h
  rcases h with hflag | ⟨fault, hfault⟩
  · exact hanswer (Except.ok.inj hflag)
  · cases hfault

theorem Refuses.glances {action : Action} (h : p.Refuses action)
    (hrequest : action.isRequest = true) : ∃ seen, (p.act action).2 = p.glance seen := by
  cases action with
  | relayFrom source | relayWithin => exact glances_accept (h.ne_done rfl nofun)
  | run command =>
    cases command with
    | openAt cursor bytes => exact glances_openAt (h.ne_done rfl nofun)
    | write loc value => exact glances_write (h.ne_done rfl nofun)
    | claim words => exact glances_claim (h.ne_done rfl nofun)
    | storeAhead | publish | publishMarker | rebaseWrites | roomFor | isVisible | read
    | readMessage | readContinuation | releaseNow | rebaseReads | skip | reset => cases hrequest

/-- An attempt that is refused sees at most more of the published head. -/
theorem Refuses.unmoved (hs : p.schema.LaidOut) (hfollows : p.consumer.Follows p.schema)
    {action : Action} (h : p.Refuses action) (hattempt : action.isAttempt = true) :
    p.Unmoved (p.act action).2 := by
  cases action with
  | relayFrom | relayWithin => cases hattempt
  | run command =>
    cases command with
    | read => exact (attempt_read hs hfollows).unmoved (h.ne_done rfl nofun)
    | readMessage => exact (attempt_readMessage hs hfollows).unmoved (h.ne_done rfl nofun)
    | readContinuation => exact unmoved_readContinuation hs hfollows (h.ne_done rfl nofun)
    | skip words => exact unmoved_skip (h.ne_done rfl nofun)
    | openAt | write | storeAhead | claim | publish | publishMarker | rebaseWrites | roomFor
    | isVisible | releaseNow | rebaseReads | reset => cases hattempt

/-- A refused action moves neither half, but for a marker that finds no room. -/
theorem Refuses.idles (hs : p.schema.LaidOut) (hfollows : p.consumer.Follows p.schema)
    {action : Action} (h : p.Refuses action) (hne : action ≠ .run .publishMarker) :
    p.Idles (p.act action).2 := by
  cases action with
  | relayFrom source | relayWithin => exact .inl (h.glances rfl)
  | run command =>
    cases command with
    | openAt | write | claim => exact .inl (h.glances rfl)
    | read | readMessage | readContinuation | skip => exact .inr (h.unmoved hs hfollows rfl)
    | roomFor request => exact .inl (glances_roomFor request)
    | isVisible target => exact .inr (unmoved_isVisible target)
    | publishMarker => exact absurd rfl hne
    | storeAhead | publish | rebaseWrites | releaseNow | rebaseReads | reset =>
      rcases h with hflag | ⟨fault, hfault⟩
      · cases hflag
      · cases hfault

end Refusals

end Pipe

end FragmentPipe
