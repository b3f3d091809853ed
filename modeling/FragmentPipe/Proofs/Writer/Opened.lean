import FragmentPipe.Proofs.Writer.Frame

set_option autoImplicit false

namespace FragmentPipe

def Schema.FieldAt (s : Schema) (f : Fragment) (loc : Locator) (shape : Shape) : Prop :=
  ∃ position entry, f.start ≤ position ∧ position < f.start + f.tokens ∧
    s.entries[position]? = some entry ∧ entry.locator? = some loc ∧
    entry.token.shape? = some shape

theorem Schema.Measured.fieldAt {s : Schema} (hs : s.Measured) {position : Int} {f : Fragment}
    (hf : s.fragment? position = some f) {loc : Locator} {shape : Shape}
    (h : s.FieldAt f loc shape) : loc.depth = f.depth ∧ loc.offset + shape.words < f.words := by
  obtain ⟨position, entry, hstart, hstop, hentry, hloc, hshape⟩ := h
  obtain ⟨offset, hfield⟩ := hs.exists_field hf hstart hstop hentry
  rw [hfield.locator] at hloc
  cases hloc
  exact ⟨rfl, Token.words_of_shape? hshape ▸ hfield.lt_words⟩

theorem Schema.openDepth_eq {s : Schema} (hs : s.LaidOut) {position : Int} {f : Fragment}
    (hf : s.fragment? position = some f) : Pipe.openDepth f = f.depth := by
  unfold Pipe.openDepth
  cases hstarts : f.startsMessage with
  | false => rfl
  | true =>
    rw [startsMessage_of_fragment? hf] at hstarts
    rw [if_pos rfl, depth_of_fragment? hs hf, bodies_of_isMessageStart hs hstarts]
    rfl

namespace Pipe

def openedAfter (p : Pipe) (opened : Option Fragment) (action : Action) : Option Fragment :=
  match action, (p.act action).1 with
  | .run (.openAt cursor _), .ok (.flag true) => p.schema.fragment? cursor
  | .run .publish, _ | .run .reset, _ => none
  | .run .publishMarker, .ok (.flag true) => none
  | .relayFrom _, .ok (.flag true) => none
  | .relayWithin, .ok (.flag true) => none
  | _, _ => opened

section After

variable {p : Pipe} {opened : Option Fragment} {f : Fragment}

theorem openedAfter_openAt {cursor : Int} {bytes : Nat}
    (h : p.openedAfter opened (.run (.openAt cursor bytes)) = some f) :
    ((p.openAt cursor bytes).1 = .ok true ∧ p.schema.fragment? cursor = some f) ∨
      ((p.openAt cursor bytes).1 ≠ .ok true ∧ opened = some f) := by
  simp only [openedAfter, act, run, replying] at h
  cases hresult : (p.openAt cursor bytes).1 with
  | error fault =>
    rw [hresult] at h
    exact .inr ⟨nofun, h⟩
  | ok done =>
    rw [hresult] at h
    cases done with
    | false => exact .inr ⟨nofun, h⟩
    | true => exact .inl ⟨rfl, h⟩

theorem openedAfter_publishMarker (h : p.openedAfter opened (.run .publishMarker) = some f) :
    p.publishMarker.1 = false ∧ opened = some f := by
  simp only [openedAfter, act, run, answering] at h
  cases hresult : p.publishMarker.1 with
  | false =>
    rw [hresult] at h
    exact ⟨rfl, h⟩
  | true =>
    rw [hresult] at h
    cases h

theorem openedAfter_relayFrom {source : Pipe}
    (h : p.openedAfter opened (.relayFrom source) = some f) :
    (p.relayFrom source).1 ≠ .ok true ∧ opened = some f := by
  simp only [openedAfter, act, replying] at h
  cases hresult : (p.relayFrom source).1 with
  | error fault =>
    rw [hresult] at h
    exact ⟨nofun, h⟩
  | ok done =>
    rw [hresult] at h
    cases done with
    | false => exact ⟨nofun, h⟩
    | true => cases h

theorem openedAfter_relayWithin (h : p.openedAfter opened .relayWithin = some f) :
    p.relayWithin.1 ≠ .ok true ∧ opened = some f := by
  simp only [openedAfter, act, replying] at h
  cases hresult : p.relayWithin.1 with
  | error fault =>
    rw [hresult] at h
    exact ⟨nofun, h⟩
  | ok done =>
    rw [hresult] at h
    cases done with
    | false => exact ⟨nofun, h⟩
    | true => cases h

end After

inductive Opened (schema : Schema) (config : Config) : Pipe → Option Fragment → Prop where
  | built {p : Pipe} (h : build schema config = .ok p) : Opened schema config p none
  | act {p : Pipe} {opened : Option Fragment} (h : Opened schema config p opened)
      (action : Action) : Opened schema config (p.act action).2 (p.openedAfter opened action)

theorem Opened.reachable {schema : Schema} {config : Config} {p : Pipe} {opened : Option Fragment}
    (h : Opened schema config p opened) : Reachable schema config p := by
  induction h with
  | built h => exact .built h
  | act _ action ih => exact ih.act action

/-- The fragment's words are claimed and not yet published, and its start is remembered. -/
structure Fills (p : Pipe) (f : Fragment) : Prop where
  fragment : p.schema.fragment? f.start = some f
  start : ∃ start, p.producer.starts[f.depth]? = some start ∧ p.ring.head.words ≤ start ∧
    start + f.words ≤ p.producer.head.words

/-- The producer's head is at most further on; what is published and remembered is the same. -/
structure Retains (p q : Pipe) : Prop where
  schema : q.schema = p.schema
  starts : q.producer.starts = p.producer.starts
  published : q.ring.head = p.ring.head
  ahead : p.producer.head.words ≤ q.producer.head.words

theorem Retains.fills {p q : Pipe} {f : Fragment} (h : p.Retains q) (hfills : p.Fills f) :
    q.Fills f := by
  obtain ⟨hf, start, hstart, hlow, hhigh⟩ := hfills
  refine ⟨h.schema ▸ hf, start, ?_, ?_, Nat.le_trans hhigh h.ahead⟩
  · rw [h.starts]
    exact hstart
  · rw [h.published]
    exact hlow

theorem Retains.trans {p q r : Pipe} (hpq : p.Retains q) (hqr : q.Retains r) : p.Retains r :=
  ⟨hqr.schema.trans hpq.schema, hqr.starts.trans hpq.starts, hqr.published.trans hpq.published,
    Nat.le_trans hpq.ahead hqr.ahead⟩

section

variable (p : Pipe)

theorem retains_refl : p.Retains p := ⟨rfl, rfl, rfl, Nat.le_refl _⟩

theorem retains_glance (seen : Mark) : p.Retains (p.glance seen) :=
  ⟨rfl, rfl, rfl, Nat.le_refl _⟩

theorem retains_storeTrailer : p.Retains p.storeTrailer :=
  ⟨by simp, by simp, by simp, by simp⟩

theorem retains_claim (words : Nat) : p.Retains (p.claim words).2 := by
  rcases p.claim_cases words with ⟨seen, -, -, hclaim⟩ | ⟨-, cause, hclaim⟩
  · rw [hclaim]
    refine (p.retains_glance seen).trans ((retains_storeTrailer _).trans ?_)
    exact ⟨rfl, rfl, rfl, Nat.le_add_right _ _⟩
  · rw [hclaim]
    exact p.retains_glance _

theorem retains_storeWords (loc : Locator) (words : List Int32) :
    p.Retains (p.storeWords loc words).2 := by
  rcases p.storeWords_cases loc words with ⟨start, -, hstore⟩ | ⟨-, hstore⟩
  · rw [hstore]
    exact ⟨rfl, rfl, rfl, Nat.le_refl _⟩
  · rw [hstore]
    exact p.retains_refl

theorem retains_write (loc : Locator) (value : Value) : p.Retains (p.write loc value).2 := by
  cases value with
  | word value => exact p.retains_storeWords loc _
  | long value => exact p.retains_storeWords loc _
  | decimal exponent mantissa => exact p.retains_storeWords loc _
  | bytes data =>
    show p.Retains (p.storeBytes loc data).2
    rcases p.storeBytes_cases loc data with
      ⟨seen, -, -, ⟨cause, hstore⟩ | ⟨-, hstore⟩ | ⟨start, -, -, hstore⟩⟩ | ⟨-, cause, hstore⟩
    · rw [hstore]
      exact p.retains_glance seen
    · rw [hstore]
      exact p.retains_glance seen
    · rw [hstore]
      exact ⟨rfl, rfl, rfl, Nat.le_add_right _ _⟩
    · rw [hstore]
      exact p.retains_glance _

theorem retains_openAt {cursor : Int} {bytes : Nat}
    (hrefused : (p.openAt cursor bytes).1 ≠ .ok true) : p.Retains (p.openAt cursor bytes).2 := by
  rcases p.openAt_cases cursor bytes with
    ⟨-, hcase⟩ | ⟨g, -, ⟨seen, -, -, ⟨-, hcase⟩ | ⟨-, hcase⟩⟩ | ⟨-, hcase⟩⟩
  · rw [hcase]
    exact p.retains_refl
  · rw [hcase] at hrefused
    exact absurd rfl hrefused
  · rw [hcase]
    exact p.retains_glance _
  · rw [hcase]
    exact p.retains_glance _

theorem retains_accept {c : Consumer} {transfer : Ring → Mark → Ring}
    (hrefused : (p.accept c transfer).1 ≠ .ok true) : p.Retains (p.accept c transfer).2 := by
  rcases p.accept_cases c transfer with ⟨-, hcase⟩ | ⟨-, ⟨seen, -, -, hcase⟩ | ⟨-, hcase⟩⟩
  · rw [hcase]
    exact p.retains_refl
  · rw [hcase] at hrefused
    exact absurd rfl hrefused
  · rw [hcase]
    exact p.retains_glance _

theorem retains_publishMarker (hrefused : p.publishMarker.1 = false) :
    p.Retains p.publishMarker.2 := by
  rcases p.publishMarker_cases with ⟨seen, -, -, hcase⟩ | ⟨-, hcase⟩
  · rw [hcase] at hrefused
    cases hrefused
  · rw [hcase]
    exact p.retains_storeTrailer.trans (retains_glance _ _)

theorem retains_roomFor (request : Mark) : p.Retains (p.roomFor request).2 := by
  rcases p.roomFor_cases request with ⟨seen, -, -, hcase⟩ | ⟨-, hcase⟩
  · rw [hcase]
    exact p.retains_glance _
  · rw [hcase]
    exact p.retains_glance _

theorem retains_isVisible (target : Nat) : p.Retains (p.isVisible target).2 := by
  obtain ⟨seen, -, ⟨-, hcase⟩ | ⟨-, -, hcase⟩⟩ := p.isVisible_cases target
  · rw [hcase]
    exact ⟨rfl, rfl, rfl, Nat.le_refl _⟩
  · rw [hcase]
    exact ⟨rfl, rfl, rfl, Nat.le_refl _⟩

theorem retains_releaseNow : p.Retains p.releaseNow := by
  unfold releaseNow release
  split
  · exact ⟨rfl, rfl, rfl, Nat.le_refl _⟩
  · exact p.retains_refl

theorem retains_skip (words : Nat) : p.Retains (p.skip words).2 := by
  obtain ⟨q, ⟨seen, -, rfl⟩, ⟨-, hcase⟩ | ⟨cause, hcase⟩⟩ := p.skip_cases words
  · rw [hcase]
    exact ⟨rfl, rfl, rfl, Nat.le_refl _⟩
  · rw [hcase]
    exact ⟨rfl, rfl, rfl, Nat.le_refl _⟩

end

theorem Attempt.retains {p : Pipe} {expected : ReadItem → Prop}
    {result : Except Fault Bool × Pipe} (h : p.Attempt expected result) : p.Retains result.2 := by
  cases h with
  | moved _ _ hmoved _ =>
    obtain ⟨tail, -, hring⟩ := hmoved.ring
    exact ⟨hmoved.schema, by rw [hmoved.producer], by rw [hring],
      Nat.le_of_eq (by rw [hmoved.producer])⟩
  | nothing hunmoved _ | corrupt hunmoved _ =>
    obtain ⟨seen, -, rfl⟩ := hunmoved
    exact ⟨rfl, rfl, rfl, Nat.le_refl _⟩

theorem opens_of_openAt {p q : Pipe} {cursor : Int} {bytes : Nat}
    (hopen : p.openAt cursor bytes = (.ok true, q)) {f : Fragment}
    (hf : p.schema.fragment? cursor = some f) :
    openDepth f < p.producer.starts.size ∧ ∃ seen, Opens f (openDepth f) (p.glance seen) q := by
  rcases p.openAt_cases cursor bytes with
    ⟨-, hcase⟩ | ⟨g, hg, ⟨seen, -, -, ⟨hdepth, hcase⟩ | ⟨-, hcase⟩⟩ | ⟨-, hcase⟩⟩ <;>
    rw [hcase] at hopen <;> cases hopen
  obtain rfl : f = g := Option.some.inj (hf.symm.trans hg)
  exact ⟨hdepth, seen, opens_openFragment (p.glance seen) f (openDepth f)⟩

theorem fills_openAt {p q : Pipe} (hs : p.schema.LaidOut) (h : p.Ordered) {cursor : Int}
    {bytes : Nat} (hopen : p.openAt cursor bytes = (.ok true, q)) {f : Fragment}
    (hf : p.schema.fragment? cursor = some f) : q.Fills f := by
  obtain ⟨hdepth, seen, hopens⟩ := opens_of_openAt hopen hf
  have hends := hopens.ring_ends
  refine ⟨?_, p.producer.head.words, ?_, ?_, ?_⟩
  · rw [hopens.schema]
    obtain ⟨hstart, -⟩ := Schema.fragment?_eq_some hf
    rw [← hstart]
    exact hf
  · rw [hopens.starts, ← Schema.openDepth_eq hs hf]
    exact Array.getElem?_setIfInBounds_self_of_lt hdepth
  · rw [hends.1]
    exact h.published.1
  · rw [hopens.head]
    exact Nat.le_refl _

/-- One action keeps track of the fragment that is being filled. -/
theorem fills_act {p : Pipe} (hs : p.schema.LaidOut) (hfollows : p.consumer.Follows p.schema)
    (hordered : p.Ordered) {opened : Option Fragment} (h : ∀ f, opened = some f → p.Fills f)
    (action : Action) (f : Fragment) (hf : p.openedAfter opened action = some f) :
    (p.act action).2.Fills f := by
  have hretains : ∀ {q : Pipe}, p.Retains q → opened = some f → q.Fills f :=
    fun hkeeps hopened => hkeeps.fills (h f hopened)
  cases action with
  | relayFrom source =>
    obtain ⟨hrefused, hopened⟩ := openedAfter_relayFrom hf
    exact hretains (p.retains_accept hrefused) hopened
  | relayWithin =>
    obtain ⟨hrefused, hopened⟩ := openedAfter_relayWithin hf
    exact hretains (p.retains_accept hrefused) hopened
  | run command =>
    cases command with
    | openAt cursor bytes =>
      rcases openedAfter_openAt hf with ⟨hdone, hfragment⟩ | ⟨hrefused, hopened⟩
      · exact fills_openAt hs hordered (Prod.ext hdone rfl) hfragment
      · exact hretains (p.retains_openAt hrefused) hopened
    | write loc value => exact hretains (p.retains_write loc value) hf
    | storeAhead offset value => exact hretains ⟨rfl, rfl, rfl, Nat.le_refl _⟩ hf
    | claim words => exact hretains (p.retains_claim words) hf
    | publish => cases hf
    | publishMarker =>
      obtain ⟨hrefused, hopened⟩ := openedAfter_publishMarker hf
      exact hretains (p.retains_publishMarker hrefused) hopened
    | rebaseWrites => exact hretains ⟨rfl, rfl, rfl, Nat.le_refl _⟩ hf
    | roomFor request => exact hretains (p.retains_roomFor request) hf
    | isVisible target => exact hretains (p.retains_isVisible target) hf
    | read => exact hretains (attempt_read hs hfollows).retains hf
    | readMessage => exact hretains (attempt_readMessage hs hfollows).retains hf
    | readContinuation =>
      by_cases hdue : p.isMessageDue = true
      · have hsame : p.readContinuation.2 = p := by rw [readContinuation_of_due hdue]
        exact hretains (hsame.symm ▸ p.retains_refl) hf
      · have hattempt := attempt_readContinuation hs hfollows (by simpa using hdue)
        exact hretains hattempt.retains hf
    | releaseNow => exact hretains p.retains_releaseNow hf
    | rebaseReads => exact hretains ⟨rfl, rfl, rfl, Nat.le_refl _⟩ hf
    | skip words => exact hretains (p.retains_skip words) hf
    | reset => cases hf

theorem Opened.fills {schema : Schema} {config : Config} {p : Pipe} {opened : Option Fragment}
    (h : Opened schema config p opened) (hs : schema.Accepted) :
    ∀ f, opened = some f → p.Fills f := by
  induction h with
  | built h =>
    intro f hf
    cases hf
  | act h action ih =>
    obtain ⟨rfl, hfollows⟩ := h.reachable.follows hs.compiled
    exact fills_act hs.laidOut hfollows (h.reachable.ordered hs) ih action

end Pipe

end FragmentPipe
