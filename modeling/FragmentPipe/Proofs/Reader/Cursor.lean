import FragmentPipe.Proofs.Reader.Moves

set_option autoImplicit false

namespace FragmentPipe

namespace Pipe

/-- What a read can come to: the consumer moves onto an item that was expected, or it stays where it
is, because nothing is published there or because the stream is corrupt. -/
inductive Attempt (p : Pipe) (expected : ReadItem → Prop) : Except Fault Bool × Pipe → Prop where
  | moved {item : ReadItem} {bytes : Nat} {q : Pipe} (hitem : expected item)
      (hprepares : p.Prepares p.consumer.next item bytes q)
      (hmoved : p.Moved p.consumer.next item bytes q) (hfollows : q.consumer.Follows p.schema) :
      Attempt p expected (.ok true, q)
  | nothing {q : Pipe} (hunmoved : p.Unmoved q) (hhead : p.ring.head.words ≤ p.consumer.next) :
      Attempt p expected (.ok false, q)
  | corrupt {q : Pipe} {cause : PipeError} (hunmoved : p.Unmoved q)
      (hcause : cause.isCorruption = true) : Attempt p expected (.error (.error cause), q)

def Expects (p : Pipe) (item : ReadItem) : Prop :=
  if p.isMessageDue then p.Announces item else p.Continues item

theorem Expects.either {p : Pipe} {item : ReadItem} (h : p.Expects item) :
    p.Announces item ∨ p.Continues item := by
  unfold Expects at h
  split at h
  · exact .inl h
  · exact .inr h

section Attempts

variable {p : Pipe} (hs : p.schema.LaidOut) (hfollows : p.consumer.Follows p.schema)

include hfollows in
theorem isSome_of_not_due (h : p.isMessageDue = false) :
    ∃ fragment, p.schema.fragment? (positionValue p.consumer.nextCursor) = some fragment := by
  cases hnext : p.consumer.nextCursor with
  | none => simp [isMessageDue, hnext] at h
  | some next =>
    rcases (hfollows.rests next hnext).begins with hsize | hbegins
    · have hsize' : next = p.schema.size := hsize
      simp [isMessageDue, hnext, hsize'] at h
    · exact Option.isSome_iff_exists.1 hbegins

include hs hfollows

theorem attempt_readMessage : p.Attempt p.Announces p.readMessage := by
  have hsits : ∀ item, p.Announces item →
      item.Sits p.schema p.consumer.sequences.frames :=
    fun item h => ReadItem.sits_of_announces hs h _
  rcases p.readMessage_cases with ⟨item, bytes, q, hitem, hprepares, h⟩ |
    ⟨q, hq, ⟨hhead, h⟩ | ⟨cause, hcause, h⟩ | ⟨hstuck, h⟩⟩
  · obtain ⟨hmoved, hfollows'⟩ := hprepares.moved hs hfollows (hsits item hitem)
    rw [h]
    exact .moved hitem hprepares hmoved hfollows'
  · rw [h]
    exact .nothing hq hhead
  · rw [h]
    exact .corrupt hq hcause
  · exfalso
    rcases hstuck with ⟨item, hitem, hstuck⟩ | ⟨id, hstart, hnone⟩
    · exact not_stuck hs hfollows (hsits item hitem) _ hstuck
    · obtain ⟨f, hf⟩ := Schema.exists_fragment_of_isMessageStart hs hstart
      rw [hnone] at hf
      cases hf

theorem attempt_readContinuation (hdue : p.isMessageDue = false) :
    p.Attempt p.Continues p.readContinuation := by
  have hsits : ∀ item, p.Continues item →
      item.Sits p.schema p.consumer.sequences.frames :=
    fun item h => ReadItem.sits_of_continues hfollows h
  rcases p.readContinuation_cases with ⟨item, bytes, q, hitem, hprepares, h⟩ | ⟨hnone, -⟩ |
    ⟨q, hq, ⟨hhead, h⟩ | ⟨cause, hcause, h⟩ | ⟨⟨item, hitem, hstuck⟩, -⟩⟩
  · obtain ⟨hmoved, hfollows'⟩ := hprepares.moved hs hfollows (hsits item hitem)
    rw [h]
    exact .moved hitem hprepares hmoved hfollows'
  · obtain ⟨fragment, hfragment⟩ := isSome_of_not_due hfollows hdue
    exact absurd ⟨hdue, fragment, hfragment, rfl⟩ (hnone (.continuation fragment))
  · rw [h]
    exact .nothing hq hhead
  · rw [h]
    exact .corrupt hq hcause
  · exact absurd hstuck (not_stuck hs hfollows (hsits item hitem) _)

theorem attempt_read : p.Attempt p.Expects p.read := by
  unfold read Expects
  cases hdue : p.isMessageDue with
  | true => exact attempt_readMessage hs hfollows
  | false => exact attempt_readContinuation hs hfollows hdue

end Attempts

theorem KeepsReader.follows {p q : Pipe} (h : p.KeepsReader q)
    (hfollows : p.consumer.Follows p.schema) : q.consumer.Follows p.schema where
  starts := by rw [h.starts, hfollows.starts]
  capacity := by rw [h.sequences, hfollows.capacity]
  idle := by
    rw [h.nextCursor, h.sequences]
    exact hfollows.idle
  rests := by
    rw [h.nextCursor, h.sequences]
    exact hfollows.rests

theorem Attempt.follows {p : Pipe} {expected : ReadItem → Prop}
    {result : Except Fault Bool × Pipe} (h : p.Attempt expected result)
    (hfollows : p.consumer.Follows p.schema) : result.2.consumer.Follows p.schema := by
  cases h with
  | moved _ _ _ hnext => exact hnext
  | nothing hunmoved _ => exact hunmoved.keepsReader.follows hfollows
  | corrupt hunmoved _ => exact hunmoved.keepsReader.follows hfollows

theorem Attempt.schema {p : Pipe} {expected : ReadItem → Prop}
    {result : Except Fault Bool × Pipe} (h : p.Attempt expected result) :
    result.2.schema = p.schema := by
  cases h with
  | moved _ _ hmoved _ => exact hmoved.schema
  | nothing hunmoved _ | corrupt hunmoved _ =>
    obtain ⟨seen, -, rfl⟩ := hunmoved
    rfl

theorem Attempt.ne_outOfRange {p : Pipe} {expected : ReadItem → Prop}
    {result : Except Fault Bool × Pipe} (h : p.Attempt expected result) :
    result.1 ≠ .error .outOfRange := by
  intro hfault
  cases h with
  | moved | nothing | corrupt => cases hfault

theorem Attempt.ne_noFragmentAt {p : Pipe} {expected : ReadItem → Prop}
    {result : Except Fault Bool × Pipe} (h : p.Attempt expected result) (cursor : Int) :
    result.1 ≠ .error (.error (.noFragmentAt cursor)) := by
  intro hfault
  cases h with
  | moved | nothing => cases hfault
  | corrupt _ hcause =>
    cases hfault
    cases hcause

theorem readContinuation_of_due {p : Pipe} (h : p.isMessageDue = true) :
    p.readContinuation =
      (.error (.error (.noFragmentAt (positionValue p.consumer.nextCursor))), p) := by
  simp [readContinuation, h]

theorem follows_act {p : Pipe} (hs : p.schema.LaidOut) (hfollows : p.consumer.Follows p.schema)
    (action : Action) :
    (p.act action).2.schema = p.schema ∧ (p.act action).2.consumer.Follows p.schema := by
  cases hmoves : action.movesReader with
  | false =>
    have hkeeps := p.keepsReader_act hmoves
    exact ⟨hkeeps.schema, hkeeps.follows hfollows⟩
  | true =>
    cases action with
    | relayFrom source | relayWithin => cases hmoves
    | run command =>
      cases command with
      | openAt | write | storeAhead | claim | publish | publishMarker | rebaseWrites | roomFor
      | isVisible | releaseNow | rebaseReads | skip => cases hmoves
      | read =>
        have h := attempt_read hs hfollows
        exact ⟨h.schema, h.follows hfollows⟩
      | readMessage =>
        have h := attempt_readMessage hs hfollows
        exact ⟨h.schema, h.follows hfollows⟩
      | readContinuation =>
        show p.readContinuation.2.schema = _ ∧ p.readContinuation.2.consumer.Follows _
        by_cases hdue : p.isMessageDue = true
        · rw [readContinuation_of_due hdue]
          exact ⟨rfl, hfollows⟩
        · have h := attempt_readContinuation hs hfollows (by simpa using hdue)
          exact ⟨h.schema, h.follows hfollows⟩
      | reset =>
        exact ⟨rfl, Consumer.follows_idle _ _ _ _ hfollows.starts hfollows.capacity
          (SequenceStack.frames_clear _)⟩

theorem Reachable.follows {schema : Schema} {config : Config} {p : Pipe}
    (h : Reachable schema config p) (hs : schema.Compiled) :
    p.schema = schema ∧ p.consumer.Follows p.schema := by
  induction h with
  | built h =>
    rw [eq_fresh_of_build h]
    refine ⟨rfl, Consumer.follows_idle _ _ _ _ rfl ?_ (SequenceStack.frames_withCapacity _ _)⟩
    simp [fresh, SequenceStack.capacity, SequenceStack.withCapacity]
  | @act p _ action ih =>
    obtain ⟨hschema, hfollows⟩ := ih
    obtain ⟨hsame, hnext⟩ := follows_act (hschema ▸ hs.laidOut) hfollows action
    exact ⟨hsame.trans hschema, hsame ▸ hnext⟩

/-- The reader's cursor and stack fit the script: nothing is open where a message is due, and
elsewhere the stack has a live frame for each sequence around the fragment at the cursor. -/
def InPlace (p : Pipe) : Prop :=
  (p.isMessageDue = true ∧ p.consumer.sequences.isEmpty = true) ∨
    ∃ next fragment, p.consumer.nextCursor = some next ∧
      p.schema.fragment? next = some fragment ∧
      p.consumer.sequences.depth = fragment.depth ∧
      (∀ frame ∈ p.consumer.sequences.frames, 1 ≤ frame.remaining) ∧
      p.consumer.sequences.frames.map SequenceFrame.body = (p.schema.context next).bodies

theorem inPlace_of_follows {p : Pipe} (hs : p.schema.LaidOut)
    (hfollows : p.consumer.Follows p.schema) : p.InPlace := by
  have hdepth := p.consumer.sequences.length_frames
  have hempty : p.consumer.sequences.frames = [] → p.consumer.sequences.isEmpty = true := by
    intro hnil
    rw [hnil] at hdepth
    simp [SequenceStack.isEmpty, ← hdepth]
  cases hdue : p.isMessageDue with
  | true =>
    refine .inl ⟨hdue, hempty ?_⟩
    cases hnext : p.consumer.nextCursor with
    | none => exact hfollows.idle hnext
    | some next =>
      apply (hfollows.rests next hnext).frames_eq_nil hs
      simpa [isMessageDue, hnext] using hdue
  | false =>
    obtain ⟨fragment, hfragment⟩ := isSome_of_not_due hfollows hdue
    cases hnext : p.consumer.nextCursor with
    | none => simp [isMessageDue, hnext] at hdue
    | some next =>
      rw [hnext] at hfragment
      have hrests := hfollows.rests next hnext
      obtain ⟨hstart, -⟩ := Schema.fragment?_eq_some hfragment
      obtain rfl : next = fragment.start := Int.ofNat.inj hstart
      refine .inr ⟨_, fragment, hnext, hfragment, ?_, hrests.remaining, hrests.bodies⟩
      rw [Schema.depth_of_fragment? hs hfragment, ← hdepth, ← hrests.bodies, List.length_map]

theorem run_ne_outOfRange {p : Pipe} (hs : p.schema.LaidOut)
    (hfollows : p.consumer.Follows p.schema) {command : Command}
    (h : (Action.run command).isProducing = false) : (p.run command).1 ≠ .error .outOfRange := by
  have hreply : ∀ {result : Except Fault Bool × Pipe}, result.1 ≠ .error .outOfRange →
      (replying Reply.flag result).1 ≠ .error .outOfRange := by
    intro result hne hfault
    obtain ⟨reply, q⟩ := result
    cases reply with
    | ok flag => cases hfault
    | error fault =>
      cases hfault
      exact hne rfl
  cases command with
  | openAt | write | storeAhead | claim | publish | publishMarker | rebaseWrites | roomFor =>
    cases h
  | isVisible | releaseNow | rebaseReads | reset =>
    intro hfault
    cases hfault
  | read => exact hreply (attempt_read hs hfollows).ne_outOfRange
  | readMessage => exact hreply (attempt_readMessage hs hfollows).ne_outOfRange
  | readContinuation =>
    apply hreply
    by_cases hdue : p.isMessageDue = true
    · rw [readContinuation_of_due hdue]
      intro hfault
      cases hfault
    · exact (attempt_readContinuation hs hfollows (by simpa using hdue)).ne_outOfRange
  | skip words =>
    show (replying _ (p.skip words)).1 ≠ _
    intro hfault
    obtain ⟨q, -, ⟨-, hskip⟩ | ⟨cause, hskip⟩⟩ := p.skip_cases words
    · rw [hskip] at hfault
      cases hfault
    · rw [hskip] at hfault
      cases hfault

/-- The slots of the fragment starts suffice for every field of the schema. -/
theorem readValue_ne_outOfRange {p : Pipe} (hfollows : p.consumer.Follows p.schema)
    {position : Nat} {loc : Locator} (h : p.schema.locator? position = some loc) (shape : Shape) :
    p.readValue loc shape ≠ .error .outOfRange := by
  obtain ⟨e, he, hloc⟩ := Option.bind_eq_some_iff.1 h
  obtain ⟨place, hplace, rfl⟩ := Option.map_eq_some_iff.1 hloc
  have hdepth : place.depth < p.consumer.starts.size := by
    rw [hfollows.starts]
    have hle := Schema.depth_lt_maxFragmentDepth he
    rwa [Entry.depth?, hplace] at hle
  intro hfault
  simp [readValue, atField, Consumer.position?, hdepth] at hfault

/-- In every state of every run the cursor and the stack fit the script, so no action of the reader
leaves a stack or a table, and no read finds that no fragment begins at its cursor. -/
theorem reader_in_place {schema : Schema} {config : Config} {p : Pipe}
    (h : Reachable schema config p) (hs : schema.Compiled) :
    p.InPlace ∧
      (∀ command, (Action.run command).isProducing = false →
        (p.run command).1 ≠ .error .outOfRange) ∧
      (∀ cursor, p.read.1 ≠ .error (.error (.noFragmentAt cursor))) ∧
      ∀ position loc shape, p.schema.locator? position = some loc →
        p.readValue loc shape ≠ .error .outOfRange := by
  obtain ⟨rfl, hfollows⟩ := h.follows hs
  exact ⟨inPlace_of_follows hs.laidOut hfollows,
    fun command hreading => run_ne_outOfRange hs.laidOut hfollows hreading,
    fun cursor => (attempt_read hs.laidOut hfollows).ne_noFragmentAt cursor,
    fun position loc shape hloc => readValue_ne_outOfRange hfollows hloc shape⟩

theorem reader_in_place_book :
    ∃ p, Reachable Schema.book ⟨⟨4, 3⟩, 1⟩ p ∧ p.consumer.sequences.frames = [⟨2, 3⟩] ∧
      p.InPlace ∧ p.read.1 ≠ .error (.error (.noFragmentAt 3)) := by
  have hbuilt : Reachable Schema.book ⟨⟨4, 3⟩, 1⟩ (fresh Schema.book ⟨⟨4, 3⟩, 1⟩) :=
    .built (build_eq_fresh (by decide +kernel))
  obtain ⟨p, hrun, hframes⟩ : ∃ p, Reachable Schema.book ⟨⟨4, 3⟩, 1⟩ p ∧
      p.consumer.sequences.frames = [⟨2, 3⟩] :=
    ⟨_, (((hbuilt.act (.run (.openAt 0 0))).act (.run (.write ⟨0, 2⟩ (.word 2)))).act
      (.run .publish)).act (.run .read), by decide +kernel⟩
  obtain ⟨hplace, -, hread, -⟩ := reader_in_place hrun Schema.compiled_book
  exact ⟨p, hrun, hframes, hplace, hread 3⟩

end Pipe

end FragmentPipe
