import FragmentPipe.Proofs.Positions
import FragmentPipe.Proofs.Reader.Traversal

set_option autoImplicit false

namespace FragmentPipe

structure Landing where
  cursor : Nat
  start : Nat
deriving DecidableEq, Repr

namespace Schema

def Introduces (s : Schema) (cursor body : Nat) : Prop :=
  ∃ f last final, s.fragment? cursor = some f ∧ s.lastOf? f = some (last, final) ∧
    final.token.isLength = true ∧ body = last + 1

/-- Of the fragments prepared since the message began, the one at `start` introduced the sequence
with this body, and all that came later lie inside it. -/
def Enters (s : Schema) (trace : List Landing) (body start : Nat) : Prop :=
  ∃ before cursor after, trace = before ++ ⟨cursor, start⟩ :: after ∧ s.Introduces cursor body ∧
    ∀ later ∈ after, body ∈ (s.context later.cursor).bodies

/-- The slots address the fragments that entered the open sequences, innermost first, each in front
of the next and all of them in front of the limit. -/
inductive Surrounds (s : Schema) (trace : List Landing) (starts : Array Nat) :
    Nat → List Nat → Prop where
  | outside (limit : Nat) : Surrounds s trace starts limit []
  | inside {limit body start : Nat} {outer : List Nat}
      (hslot : starts[outer.length]? = some start) (hlt : start < limit)
      (henters : s.Enters trace body start) (houter : Surrounds s trace starts start outer) :
      Surrounds s trace starts limit (body :: outer)

section

variable {s : Schema} {trace : List Landing} {starts : Array Nat} {limit body start cursor : Nat}
  {bodies inner : List Nat}

theorem Enters.visit (h : s.Enters trace body start) (hinside : body ∈ (s.context cursor).bodies)
    (position : Nat) : s.Enters (trace ++ [⟨cursor, position⟩]) body start := by
  obtain ⟨before, first, after, rfl, hintroduces, hlater⟩ := h
  refine ⟨before, first, after ++ [⟨cursor, position⟩], by simp, hintroduces, fun later hmem => ?_⟩
  rcases List.mem_append.1 hmem with hbefore | hnew
  · exact hlater later hbefore
  · rw [List.mem_singleton.1 hnew]
    exact hinside

theorem enters_last (h : s.Introduces cursor body) (trace : List Landing) (start : Nat) :
    s.Enters (trace ++ [⟨cursor, start⟩]) body start :=
  ⟨trace, cursor, [], rfl, h, fun _ hmem => absurd hmem List.not_mem_nil⟩

theorem Surrounds.mono {limit' : Nat} (h : s.Surrounds trace starts limit bodies)
    (hle : limit ≤ limit') : s.Surrounds trace starts limit' bodies := by
  cases h with
  | outside => exact .outside limit'
  | inside hslot hlt henters houter =>
    exact .inside hslot (Nat.lt_of_lt_of_le hlt hle) henters houter

theorem Surrounds.suffix (h : s.Surrounds trace starts limit bodies) (hsuffix : inner <:+ bodies) :
    s.Surrounds trace starts limit inner := by
  induction h with
  | outside limit =>
    rw [List.suffix_nil.1 hsuffix]
    exact .outside limit
  | inside hslot hlt henters houter ih =>
    rcases List.suffix_cons_iff.1 hsuffix with rfl | hrest
    · exact .inside hslot hlt henters houter
    · exact (ih hrest).mono (Nat.le_of_lt hlt)

/-- A fragment inside all of the sequences takes a slot behind theirs. -/
theorem Surrounds.visit {depth : Nat} (h : s.Surrounds trace starts limit bodies)
    (hinside : ∀ body ∈ bodies, body ∈ (s.context cursor).bodies) (hdepth : bodies.length ≤ depth)
    (position : Nat) :
    s.Surrounds (trace ++ [⟨cursor, position⟩]) (starts.setIfInBounds depth position) limit
      bodies := by
  induction h with
  | outside limit => exact .outside limit
  | @inside limit body start outer hslot hlt henters houter ih =>
    rw [List.length_cons] at hdepth
    refine .inside ?_ hlt (henters.visit (hinside body List.mem_cons_self) position)
      (ih (fun other hmem => hinside other (List.mem_cons_of_mem _ hmem)) (by omega))
    rw [Array.getElem?_setIfInBounds_ne (by omega)]
    exact hslot

theorem Surrounds.slot (h : s.Surrounds trace starts limit bodies) {k : Nat}
    (hk : bodies.reverse[k]? = some body) :
    ∃ start, starts[k]? = some start ∧ start < limit ∧ s.Enters trace body start := by
  induction h with
  | outside => simp at hk
  | @inside limit innermost start outer hslot hlt henters houter ih =>
    rw [List.reverse_cons] at hk
    by_cases hlast : k < outer.length
    · rw [List.getElem?_append_left (by simpa using hlast)] at hk
      obtain ⟨first, hfirst, hbefore, hentered⟩ := ih hk
      exact ⟨first, hfirst, Nat.lt_trans hbefore hlt, hentered⟩
    · have hlength := (List.getElem?_eq_some_iff.1 hk).1
      simp only [List.length_append, List.length_reverse, List.length_singleton] at hlength
      obtain rfl : k = outer.length := by omega
      rw [← List.length_reverse, List.getElem?_concat_length] at hk
      cases hk
      exact ⟨start, hslot, hlt, henters⟩

theorem Surrounds.slot_lt (h : s.Surrounds trace starts limit bodies) {k : Nat}
    (hk : k < bodies.length) : ∃ start, starts[k]? = some start ∧ start < limit := by
  obtain ⟨start, hslot, hlt, -⟩ := h.slot
    (List.getElem?_eq_getElem (l := bodies.reverse) (i := k) (by rwa [List.length_reverse]))
  exact ⟨start, hslot, hlt⟩

end

end Schema

section Leaving

theorem finishFrame_suffix (frames : List (SequenceFrame Nat)) :
    (finishFrame frames).2.map SequenceFrame.body <:+ frames.map SequenceFrame.body := by
  cases frames with
  | nil => exact List.suffix_refl _
  | cons frame rest =>
    by_cases hmore : 1 < frame.remaining
    · simp [finishFrame, hmore]
    · simp [finishFrame, hmore]

theorem Place.settle_suffix (entries : List Entry) (position : Nat)
    (frames : List (SequenceFrame Nat)) :
    (Place.settle entries position frames).frames.map SequenceFrame.body <:+
      frames.map SequenceFrame.body := by
  induction entries generalizing position frames with
  | nil => exact List.suffix_refl _
  | cons e rest ih =>
    have hfinished := finishFrame_suffix frames
    unfold Place.settle
    split
    · split
      · rename_i body frames' hbody
        rw [hbody] at hfinished
        exact hfinished
      · rename_i frames' hnone
        rw [hnone] at hfinished
        exact (ih (position + 1) frames').trans hfinished
    · split
      · exact ih (position + 1) frames
      · exact List.suffix_refl _

/-- A reader that leaves a fragment enters the sequence that the fragment introduces, or none. -/
theorem Schema.leave_bodies (s : Schema) {position : Int} {f : Fragment}
    (hf : s.fragment? position = some f) (length : Int) (frames : List (SequenceFrame Nat)) :
    (s.leave f length frames).frames.map SequenceFrame.body <:+ frames.map SequenceFrame.body ∨
      ∃ body, s.Introduces f.start body ∧
        (s.leave f length frames).frames.map SequenceFrame.body =
          body :: frames.map SequenceFrame.body := by
  unfold Schema.leave
  split
  · exact .inl (List.suffix_refl _)
  · rename_i last final hlast
    obtain ⟨rfl, -⟩ := Schema.fragment?_eq_some hf
    unfold Schema.advance
    split
    · rename_i hlength
      split
      · exact .inr ⟨last + 1, ⟨f, last, final, hf, hlast, hlength, rfl⟩, rfl⟩
      · exact .inl (Place.settle_suffix _ _ _)
    · split
      · exact .inl (Place.settle_suffix _ _ _)
      · exact .inl (List.suffix_refl _)

theorem Schema.length_leave (s : Schema) {position : Int} {f : Fragment}
    (hf : s.fragment? position = some f) (length : Int) (frames : List (SequenceFrame Nat)) :
    (s.leave f length frames).frames.length ≤ frames.length + 1 := by
  rcases s.leave_bodies hf length frames with hsuffix | ⟨body, -, hentered⟩
  · have hle := hsuffix.length_le
    simp only [List.length_map] at hle
    omega
  · have heq := congrArg List.length hentered
    simp only [List.length_cons, List.length_map] at heq
    omega

end Leaving

namespace Pipe

def landing? (p : Pipe) : Option Landing :=
  p.consumer.cursor.map fun cursor => ⟨cursor, p.consumer.tail.words⟩

def landRead (trace : List Landing) : Except Fault Reply × Pipe → List Landing
  | (.ok (.flag true), q) =>
    if q.consumer.isNewMessage then q.landing?.toList else trace ++ q.landing?.toList
  | _ => trace

def landAfter (p : Pipe) (trace : List Landing) (action : Action) : List Landing :=
  match action with
  | .run .reset => []
  | .run .read | .run .readMessage | .run .readContinuation => landRead trace (p.act action)
  | _ => trace

inductive Landed (schema : Schema) (config : Config) : Pipe → List Landing → Prop where
  | built {p : Pipe} (h : build schema config = .ok p) : Landed schema config p []
  | act {p : Pipe} {trace : List Landing} (h : Landed schema config p trace) (action : Action) :
      Landed schema config (p.act action).2 (p.landAfter trace action)

theorem Landed.reachable {schema : Schema} {config : Config} {p : Pipe} {trace : List Landing}
    (h : Landed schema config p trace) : Reachable schema config p := by
  induction h with
  | built h => exact .built h
  | act _ action ih => exact ih.act action

def Enclosed (p : Pipe) (trace : List Landing) : Prop :=
  p.schema.Surrounds trace p.consumer.starts p.consumer.next
    (p.consumer.sequences.frames.map SequenceFrame.body)

section Reads

variable {p q : Pipe} {trace : List Landing} {item : ReadItem} {f : Fragment} {bytes : Nat}

theorem KeepsReader.enclosed (h : p.KeepsReader q) (hnext : p.consumer.next ≤ q.consumer.next)
    (henclosed : p.Enclosed trace) : q.Enclosed trace := by
  unfold Enclosed
  rw [h.schema, h.starts, h.sequences]
  exact Schema.Surrounds.mono henclosed hnext

theorem landing?_of_moved (hmoved : p.Moved p.consumer.next item bytes q)
    (hfragment : item.fragment? = some f) : q.landing? = some ⟨f.start, p.consumer.next⟩ := by
  unfold landing?
  rw [hmoved.cursor, hfragment, hmoved.tail]
  rfl

theorem ReadItem.Sits.depth_eq (hs : p.schema.LaidOut) {frames : List (SequenceFrame Nat)}
    (hsits : item.Sits p.schema frames) (hfragment : item.fragment? = some f) :
    item.depth = (p.schema.context f.start).bodies.length := by
  have hf := hsits.fragment f hfragment
  cases item with
  | marker => cases hfragment
  | message g =>
    cases hfragment
    rw [Schema.bodies_of_isMessageStart hs (hsits.message f rfl)]
    rfl
  | continuation g =>
    cases hfragment
    exact Schema.depth_of_fragment? hs hf

theorem Moved.surrounds (hs : p.schema.LaidOut)
    (hsits : item.Sits p.schema p.consumer.sequences.frames)
    (hmoved : p.Moved p.consumer.next item bytes q) (hfragment : item.fragment? = some f)
    (h : p.schema.Surrounds trace p.consumer.starts p.consumer.next
      ((item.framesIn p.consumer.sequences.frames).map SequenceFrame.body)) :
    q.consumer.starts[(p.schema.context f.start).bodies.length]? = some p.consumer.next ∧
      p.schema.Surrounds (trace ++ [⟨f.start, p.consumer.next⟩]) q.consumer.starts p.consumer.next
        (p.schema.context f.start).bodies := by
  have hdepth := ReadItem.Sits.depth_eq hs hsits hfragment
  rw [(hsits.rests f hfragment).bodies] at h
  rw [hmoved.starts, ← hdepth, Array.getElem?_setIfInBounds_self_of_lt hmoved.depth_lt]
  exact ⟨rfl, h.visit (fun _ hmem => hmem) (Nat.le_of_eq hdepth.symm) _⟩

theorem Moved.enclosed (hs : p.schema.Measured)
    (hsits : item.Sits p.schema p.consumer.sequences.frames)
    (hmoved : p.Moved p.consumer.next item bytes q) (hfragment : item.fragment? = some f)
    (h : p.schema.Surrounds trace p.consumer.starts p.consumer.next
      ((item.framesIn p.consumer.sequences.frames).map SequenceFrame.body)) :
    q.Enclosed (trace ++ q.landing?.toList) := by
  obtain ⟨hslot, hsurrounds⟩ := hmoved.surrounds hs.laidOut hsits hfragment h
  have hf := hsits.fragment f hfragment
  have hbodies := (hsits.rests f hfragment).bodies
  obtain ⟨-, hframes⟩ := hmoved.place f hfragment
  have hwords := Nat.lt_of_le_of_lt (Nat.zero_le _) (hs.base_lt_words hf)
  have hahead : p.consumer.next < q.consumer.next := by
    rw [hmoved.next, ReadItem.words_of_fragment? hfragment]
    omega
  unfold Enclosed
  rw [hmoved.schema, landing?_of_moved hmoved hfragment, Option.toList_some, hframes]
  rcases p.schema.leave_bodies hf (p.ring.lengthOf p.schema p.consumer.next f)
    (item.framesIn p.consumer.sequences.frames) with hsuffix | ⟨body, hintroduces, hentered⟩
  · rw [hbodies] at hsuffix
    exact (hsurrounds.suffix hsuffix).mono (Nat.le_of_lt hahead)
  · rw [hentered, hbodies]
    exact .inside hslot hahead (Schema.enters_last hintroduces trace _) hsurrounds

end Reads

/-- The frames inside which a fragment is read that was announced or that goes on, and what a run
keeps of its landings for it. -/
theorem Enclosed.around {p : Pipe} {trace : List Landing} (hs : p.schema.LaidOut)
    (hfollows : p.consumer.Follows p.schema) (h : p.Enclosed trace) {item : ReadItem}
    (hitem : p.Announces item ∨ p.Continues item) :
    item.Sits p.schema p.consumer.sequences.frames ∧
      p.schema.Surrounds (if item.startsMessage then [] else trace) p.consumer.starts
        p.consumer.next ((item.framesIn p.consumer.sequences.frames).map SequenceFrame.body) := by
  refine ⟨?_, ?_⟩
  · rcases hitem with hannounces | hcontinues
    · exact ReadItem.sits_of_announces hs hannounces _
    · exact ReadItem.sits_of_continues hfollows hcontinues
  · unfold ReadItem.framesIn
    cases item.startsMessage with
    | true => exact .outside _
    | false => exact h

theorem Attempt.enclosed {p : Pipe} {trace : List Landing} {expected : ReadItem → Prop}
    {result : Except Fault Bool × Pipe} (h : p.Attempt expected result) (hs : p.schema.Measured)
    (hfollows : p.consumer.Follows p.schema) (henclosed : p.Enclosed trace)
    (hexpected : ∀ item, expected item → p.Announces item ∨ p.Continues item) :
    result.2.Enclosed (landRead trace (replying .flag result)) := by
  cases h with
  | @moved item bytes q hitem _ hmoved _ =>
    obtain ⟨hsits, hsurrounds⟩ := henclosed.around hs.laidOut hfollows (hexpected item hitem)
    simp only [replying, Except.map, landRead, hmoved.isNewMessage]
    cases hfragment : item.fragment? with
    | none =>
      unfold Enclosed
      rw [(hmoved.marker hfragment).2]
      exact .outside _
    | some f =>
      have hnext := hmoved.enclosed hs hsits hfragment hsurrounds
      cases hstarts : item.startsMessage with
      | true =>
        rw [hstarts] at hnext
        exact hnext
      | false =>
        rw [hstarts] at hnext
        exact hnext
  | nothing hunmoved _ | corrupt hunmoved _ =>
    refine hunmoved.keepsReader.enclosed ?_ henclosed
    obtain ⟨seen, -, rfl⟩ := hunmoved
    exact Nat.le_refl _

theorem enclosed_act {p : Pipe} {trace : List Landing} (hs : p.schema.Measured)
    (hfollows : p.consumer.Follows p.schema) (hordered : p.Ordered) (hcounts : p.Counts)
    (henclosed : p.Enclosed trace) (action : Action) :
    (p.act action).2.Enclosed (p.landAfter trace action) := by
  cases hmoves : action.movesReader with
  | false =>
    have hsame : p.landAfter trace action = trace := by
      cases action with
      | relayFrom source | relayWithin => rfl
      | run command => cases command <;> first | rfl | cases hmoves
    have hne : action ≠ .run .reset := by
      rintro rfl
      cases hmoves
    obtain ⟨-, -, hadvances⟩ := advances_act hs.laidOut hfollows hordered hcounts hne
    rw [hsame]
    exact (p.keepsReader_act hmoves).enclosed hadvances.next henclosed
  | true =>
    cases action with
    | relayFrom source | relayWithin => cases hmoves
    | run command =>
      cases command with
      | openAt | write | storeAhead | claim | publish | publishMarker | rebaseWrites | roomFor
      | isVisible | releaseNow | rebaseReads | skip => cases hmoves
      | read =>
        exact (attempt_read hs.laidOut hfollows).enclosed hs hfollows henclosed
          fun _ h => h.either
      | readMessage =>
        exact (attempt_readMessage hs.laidOut hfollows).enclosed hs hfollows henclosed
          fun _ h => .inl h
      | readContinuation =>
        by_cases hdue : p.isMessageDue = true
        · show p.readContinuation.2.Enclosed (landRead trace (replying .flag p.readContinuation))
          rw [readContinuation_of_due hdue]
          exact henclosed
        · exact (attempt_readContinuation hs.laidOut hfollows (by simpa using hdue)).enclosed hs
            hfollows henclosed fun _ h => .inr h
      | reset =>
        have hframes : p.reset.consumer.sequences.frames = [] := SequenceStack.frames_clear _
        show p.reset.Enclosed []
        unfold Enclosed
        rw [hframes]
        exact .outside _

theorem Landed.enclosed {schema : Schema} {config : Config} {p : Pipe} {trace : List Landing}
    (h : Landed schema config p trace) (hs : schema.Accepted) : p.Enclosed trace := by
  induction h with
  | built h =>
    have hframes : (fresh schema config).consumer.sequences.frames = [] :=
      SequenceStack.frames_withCapacity _ _
    rw [eq_fresh_of_build h]
    unfold Enclosed
    rw [hframes]
    exact .outside _
  | act h action ih =>
    have hmeasured := h.reachable.measured hs
    obtain ⟨rfl, hfollows⟩ := h.reachable.follows hs.compiled
    exact enclosed_act hmeasured hfollows (h.reachable.ordered hs) (h.reachable.counts hs) ih action

end Pipe

end FragmentPipe
