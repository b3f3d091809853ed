import FragmentPipe.Proofs.Positions
import FragmentPipe.Proofs.Writer.Opened
import FragmentPipe.Proofs.Writer.Values

set_option autoImplicit false

namespace FragmentPipe

namespace Schema

theorem depth_lt_of_locator? {s : Schema} {position : Nat} {loc : Locator}
    (h : s.locator? position = some loc) : loc.depth < s.maxFragmentDepth := by
  obtain ⟨e, he, hloc⟩ := Option.bind_eq_some_iff.1 h
  obtain ⟨place, hplace, rfl⟩ := Option.map_eq_some_iff.1 hloc
  have hlt := depth_lt_maxFragmentDepth he
  rwa [Entry.depth?, hplace] at hlt

end Schema

namespace Pipe

section Slots

variable (p : Pipe)

/-- No operation of the producer but the opening of a fragment stores where a fragment starts. -/
theorem starts_of_isProducing {action : Action} (h : action.isProducing = true)
    (hne : ∀ cursor bytes, action ≠ .run (.openAt cursor bytes)) :
    (p.act action).2.producer.starts = p.producer.starts := by
  have haccept : ∀ (c : Consumer) (transfer : Ring → Mark → Ring),
      (p.accept c transfer).2.producer.starts = p.producer.starts := by
    intro c transfer
    rcases p.accept_cases c transfer with
      ⟨-, haccept⟩ | ⟨-, ⟨seen, -, -, haccept⟩ | ⟨-, haccept⟩⟩ <;> rw [haccept]
    · exact (appends_append (p.glance seen) c transfer).starts
    · rfl
  cases action with
  | relayFrom source | relayWithin => exact haccept _ _
  | run command =>
    cases command with
    | openAt cursor bytes => exact absurd rfl (hne cursor bytes)
    | write loc value =>
      have hwords : ∀ words, (p.storeWords loc words).2.producer.starts = p.producer.starts := by
        intro words
        rcases p.storeWords_cases loc words with ⟨start, -, hstore⟩ | ⟨-, hstore⟩ <;> rw [hstore]
      cases value with
      | word | long | decimal => exact hwords _
      | bytes data =>
        show (p.storeBytes loc data).2.producer.starts = _
        rcases p.storeBytes_cases loc data with
          ⟨seen, -, -, ⟨cause, hstore⟩ | ⟨-, hstore⟩ | ⟨start, -, -, hstore⟩⟩ |
          ⟨-, cause, hstore⟩ <;> rw [hstore] <;> rfl
    | claim words =>
      show (p.claim words).2.producer.starts = _
      rcases p.claim_cases words with ⟨seen, -, -, hclaim⟩ | ⟨-, cause, hclaim⟩ <;> rw [hclaim]
      · exact (p.glance seen).starts_storeTrailer
      · rfl
    | publish => exact p.starts_storeTrailer
    | publishMarker =>
      show p.publishMarker.2.producer.starts = _
      rcases p.publishMarker_cases with ⟨seen, -, -, hmarker⟩ | ⟨-, hmarker⟩ <;> rw [hmarker]
      · exact (p.marks_publish seen).starts
      · exact p.starts_storeTrailer
    | roomFor request =>
      show (p.roomFor request).2.producer.starts = _
      rcases p.roomFor_cases request with ⟨seen, -, -, hroom⟩ | ⟨-, hroom⟩ <;> rw [hroom] <;> rfl
    | storeAhead | rebaseWrites => rfl
    | isVisible | read | readMessage | readContinuation | releaseNow | rebaseReads | skip | reset =>
      cases h

theorem slots_of_isProducing {action : Action} (h : action.isProducing = true) :
    (p.act action).2.producer.starts.size = p.producer.starts.size := by
  by_cases hopens : ∃ cursor bytes, action = .run (.openAt cursor bytes)
  · obtain ⟨cursor, bytes, rfl⟩ := hopens
    show (p.openAt cursor bytes).2.producer.starts.size = _
    rcases p.openAt_cases cursor bytes with
      ⟨-, hopen⟩ | ⟨f, -, ⟨seen, -, -, ⟨-, hopen⟩ | ⟨-, hopen⟩⟩ | ⟨-, hopen⟩⟩ <;> rw [hopen]
    · rw [(opens_openFragment (p.glance seen) f (openDepth f)).starts, Array.size_setIfInBounds]
      rfl
    · rfl
    · rfl
  · exact congrArg Array.size (p.starts_of_isProducing h fun cursor bytes heq =>
      hopens ⟨cursor, bytes, heq⟩)

end Slots

section Room

variable {schema : Schema} {config : Config} {p : Pipe}

theorem Reachable.slots (h : Reachable schema config p) (hs : schema.Accepted) :
    p.producer.starts.size = schema.maxFragmentDepth := by
  induction h with
  | built h =>
    rw [eq_fresh_of_build h]
    exact Array.size_replicate
  | @act p h action ih =>
    cases hproducing : action.isProducing with
    | true => exact (p.slots_of_isProducing hproducing).trans ih
    | false =>
      by_cases hreset : action = .run .reset
      · subst hreset
        exact Array.size_replicate.trans ih
      · obtain ⟨rfl, hfollows⟩ := h.follows hs.compiled
        rw [(consumes_of_not_isProducing hs.laidOut hfollows (h.ordered hs) hproducing
          hreset).producer]
        exact ih

/-- A fragment that fits behind the released tail is opened. -/
theorem Reachable.openAt_of_room (h : Reachable schema config p) (hs : schema.Accepted)
    {cursor : Int} {f : Fragment} (hf : schema.fragment? cursor = some f) {bytes : Nat}
    (hroom : p.FitsBehind p.ring.tail ⟨f.words, bytes⟩) :
    (p.openAt cursor bytes).1 = .ok true := by
  have hslots := h.slots hs
  obtain ⟨rfl, -⟩ := h.follows hs.compiled
  rcases p.openAt_cases cursor bytes with
    ⟨hnone, -⟩ | ⟨f', hf', ⟨seen, -, -, ⟨-, hopen⟩ | ⟨hdepth, -⟩⟩ | ⟨hfull, -⟩⟩
  · rw [hf] at hnone
    cases hnone
  · rw [hopen]
  · obtain ⟨-, e, extent, he, hx, -⟩ := Schema.fragment?_eq_some hf'
    have hlt := Schema.bodies_lt_maxFragmentDepth hs.laidOut he (by rw [hx]; rfl)
    rw [Schema.openDepth_eq hs.laidOut hf', Schema.depth_of_fragment? hs.laidOut hf', hslots]
      at hdepth
    omega
  · rw [hf] at hf'
    cases hf'
    exact absurd hroom hfull

theorem Ordered.openAt_of_full (h : p.Ordered) {cursor : Int} {f : Fragment}
    (hf : p.schema.fragment? cursor = some f) {bytes : Nat}
    (hfull : ¬ p.FitsBehind p.ring.tail ⟨f.words, bytes⟩) :
    p.openAt cursor bytes = (.ok false, p.glance p.ring.tail) := by
  rcases p.openAt_cases cursor bytes with
    ⟨hnone, -⟩ | ⟨f', hf', ⟨seen, hseen, hfits, -⟩ | ⟨-, hopen⟩⟩
  · rw [hf] at hnone
    cases hnone
  · rw [hf] at hf'
    cases hf'
    exact absurd (h.fits hseen hfits) hfull
  · exact hopen

theorem publishMarker_of_room
    (hroom : p.FitsBehind p.ring.tail (.ofWords (distance p.schema.markerWords))) :
    p.publishMarker.1 = true := by
  rcases p.publishMarker_cases with ⟨seen, -, -, hmarker⟩ | ⟨hfull, -⟩
  · rw [hmarker]
  · exact absurd hroom hfull

theorem Reachable.write_of_empty (h : Reachable schema config p) (hs : schema.Accepted)
    {position : Nat} {loc : Locator} (hloc : schema.locator? position = some loc) {value : Value}
    (hempty : value.byteLength = 0)
    (hspan : p.producer.head.bytes - p.producer.byteBase ≤ maxSpan) :
    (p.write loc value).1 = .ok () := by
  have hdepth : loc.depth < p.producer.starts.size := by
    rw [h.slots hs]
    exact Schema.depth_lt_of_locator? hloc
  have hwords : ∀ words, (p.storeWords loc words).1 = .ok () := by
    intro words
    rcases p.storeWords_cases loc words with ⟨start, -, hstore⟩ | ⟨hnone, -⟩
    · rw [hstore]
    · exact absurd hdepth (Nat.not_lt.2 hnone)
  cases value with
  | word | long | decimal => exact hwords _
  | bytes data =>
    obtain rfl := List.length_eq_zero_iff.1 hempty
    show (p.storeBytes loc []).1 = .ok ()
    unfold storeBytes
    rcases p.roomFor_cases (.ofBytes 0) with ⟨seen, -, -, hroom⟩ | ⟨hfull, -⟩
    · simp only [List.length_nil, hroom, Bool.not_true, Bool.false_eq_true, ↓reduceIte]
      rw [if_neg (Nat.not_lt.2 (by exact hspan)), if_pos (by exact hdepth)]
      unfold storeWords Producer.position?
      simp [glance, hdepth]
    · exact absurd (h.ordered hs).room hfull

end Room

end Pipe

end FragmentPipe
