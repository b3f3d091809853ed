import FragmentPipe.Proofs.Runs
import FragmentPipe.Proofs.Reader.Place

set_option autoImplicit false

namespace FragmentPipe

namespace Schema

def leave (s : Schema) (fragment : Fragment) (length : Int) (frames : List (SequenceFrame Nat)) :
    Place :=
  match s.lastOf? fragment with
  | none => ⟨fragment.start, frames⟩
  | some (last, final) => s.advance last final length frames

theorem lastOf?_of_fragment? {s : Schema} (hs : s.LaidOut) {position : Int} {f : Fragment}
    (h : s.fragment? position = some f) :
    ∃ last final, s.lastOf? f = some (last, final) ∧ s.Span f.start last ∧
      s.entries[last]? = some final := by
  obtain ⟨-, e, extent, he, hx, hf⟩ := fragment?_eq_some h
  obtain ⟨last, hspan, htokens, final, draft, hfinal, -⟩ := exists_span hs he hx
  refine ⟨last, final, ?_, hspan, hfinal⟩
  have hlast : f.start + f.tokens - 1 = last := by
    have hle := hspan.le
    rw [hf]
    simp only [htokens]
    omega
  unfold lastOf?
  simp only [hlast, hfinal, Option.map_some]

theorem Rests.leave {s : Schema} (hs : s.LaidOut) {position : Int} {f : Fragment}
    {frames : List (SequenceFrame Nat)} (hf : s.fragment? position = some f)
    (h : s.Rests ⟨f.start, frames⟩) (length : Int) : s.Rests (s.leave f length frames) := by
  obtain ⟨last, final, hlast, hspan, hfinal⟩ := lastOf?_of_fragment? hs hf
  rw [Schema.leave, hlast]
  exact h.advance hs hspan hfinal length

end Schema

/-- The word of the sequence length that ends a fragment, 0 where none does. -/
def Ring.lengthOf (r : Ring) (s : Schema) (start : Nat) (fragment : Fragment) : Int :=
  match s.lastOf? fragment with
  | none => 0
  | some (_, final) =>
    if final.token.isLength then (r.word (start + final.wordDistance)).toInt else 0

namespace Consumer

/-- What a reader relies on between two operations. -/
structure Follows (s : Schema) (c : Consumer) : Prop where
  starts : c.starts.size = s.maxFragmentDepth
  capacity : c.sequences.capacity = s.maxFragmentDepth
  idle : c.nextCursor = none → c.sequences.frames = []
  rests : ∀ next, c.nextCursor = some next → s.Rests ⟨next, c.sequences.frames⟩

theorem follows_idle (s : Schema) (slots : Nat) (sequences : SequenceStack Nat) (batchRelease : Int)
    (hslots : slots = s.maxFragmentDepth) (hcapacity : sequences.capacity = s.maxFragmentDepth)
    (hframes : sequences.frames = []) : Follows s (idle slots sequences batchRelease) where
  starts := by simp [idle, hslots]
  capacity := hcapacity
  idle := fun _ => hframes
  rests := fun next h => by cases h

theorem resumeAt_eq (schema : Schema) (position : Nat) (c : Consumer) :
    ∃ sequences, c.resumeAt schema position =
        { c with
          nextCursor := some (schema.settle position c.sequences.frames).position
          sequences } ∧
      sequences.frames = (schema.settle position c.sequences.frames).frames ∧
      sequences.capacity = c.sequences.capacity := by
  obtain ⟨hposition, hframes, hcapacity⟩ :=
    walkCloses_eq (schema.entries.toList.drop position) position c.sequences
  refine ⟨(walkCloses (schema.entries.toList.drop position) position c.sequences).2, ?_,
    hframes, hcapacity⟩
  unfold resumeAt
  simp only [hposition]
  rfl

/-- Where a fragment begins there is a slot for one sequence more. -/
theorem exists_push {s : Schema} (hs : s.LaidOut) {position : Int} {f : Fragment}
    {stack : SequenceStack Nat} (hf : s.fragment? position = some f)
    (h : s.Rests ⟨f.start, stack.frames⟩) (hcapacity : stack.capacity = s.maxFragmentDepth)
    (frame : SequenceFrame Nat) : ∃ sequences, stack.push frame = some sequences := by
  obtain ⟨-, e, extent, he, hx, -⟩ := Schema.fragment?_eq_some hf
  have hslots := Schema.bodies_lt_maxFragmentDepth hs he (by rw [hx]; rfl)
  have hdepth : stack.depth < stack.capacity := by
    rw [hcapacity, ← stack.length_frames, ← List.length_map (f := SequenceFrame.body), h.bodies]
    exact hslots
  exact Option.isSome_iff_exists.1 ((stack.push_isSome_iff frame).2 hdepth)

theorem enter_eq {s : Schema} (hs : s.LaidOut) {position : Int} {f : Fragment} (ring : Ring)
    {c : Consumer} (hf : s.fragment? position = some f)
    (h : s.Rests ⟨f.start, c.sequences.frames⟩)
    (hcapacity : c.sequences.capacity = s.maxFragmentDepth) :
    ∃ sequences, c.enter s ring f = some { c with
          cursor := some f.start
          nextCursor := some
            (s.leave f (ring.lengthOf s c.tail.words f) c.sequences.frames).position
          sequences } ∧
      sequences.frames = (s.leave f (ring.lengthOf s c.tail.words f) c.sequences.frames).frames ∧
      sequences.capacity = s.maxFragmentDepth := by
  obtain ⟨last, final, hlast, hspan, hfinal⟩ := s.lastOf?_of_fragment? hs hf
  unfold enter Schema.leave Ring.lengthOf Schema.advance
  simp only [hlast]
  by_cases hlength : final.token.isLength = true
  · simp only [hlength, ↓reduceIte]
    by_cases hmore : 0 < (ring.word (c.tail.words + final.wordDistance)).toInt
    · simp only [hmore, ↓reduceIte]
      obtain ⟨sequences, hpush⟩ := exists_push hs hf h hcapacity ⟨_, last + 1⟩
      refine ⟨sequences, by rw [hpush]; rfl, SequenceStack.frames_push hpush, ?_⟩
      rw [← hcapacity, SequenceStack.capacity_push hpush]
    · simp only [hmore, ↓reduceIte]
      have hrole : final.token.role = .length := Token.role_of_isLength hlength
      obtain ⟨stop, hstop, -⟩ := hs.sequenceEnd last final hfinal hrole
      simp only [hstop, Option.getD_some]
      obtain ⟨sequences, heq, hframes, hsame⟩ := resumeAt_eq s stop
        { c with cursor := some f.start, nextCursor := some (last + 1) }
      exact ⟨sequences, by rw [heq], hframes, hsame.trans hcapacity⟩
  · simp only [hlength, Bool.false_eq_true, ↓reduceIte]
    by_cases hcloses : final.token.closesSequence = true
    · simp only [hcloses, ↓reduceIte]
      obtain ⟨hbody, hframes⟩ := finishFrame_eq c.sequences
      have hsame := capacity_finishIteration c.sequences
      rw [Schema.settle_of_closesSequence hfinal hcloses]
      generalize c.sequences.finishIteration = finished at hbody hframes hsame
      generalize finishFrame c.sequences.frames = framed at hbody hframes
      obtain ⟨body, sequences⟩ := finished
      obtain ⟨body', frames⟩ := framed
      simp only at hbody hframes hsame
      subst hbody hframes
      cases body with
      | some body => exact ⟨sequences, rfl, rfl, hsame.trans hcapacity⟩
      | none =>
        simp only
        obtain ⟨sequences', heq, hframes', hsame'⟩ := resumeAt_eq s (last + 1)
          { c with cursor := some f.start, nextCursor := some (last + 1), sequences }
        exact ⟨sequences', by rw [heq], hframes', hsame'.trans (hsame.trans hcapacity)⟩
    · simp only [hcloses, Bool.false_eq_true, ↓reduceIte]
      exact ⟨c.sequences, rfl, rfl, hcapacity⟩

end Consumer

namespace ReadItem

theorem words_of_fragment? {s : Schema} {item : ReadItem} {f : Fragment}
    (h : item.fragment? = some f) : item.words s = f.words := by
  cases item with
  | marker => cases h
  | message g | continuation g =>
    cases h
    rfl

def framesIn (frames : List (SequenceFrame Nat)) (item : ReadItem) : List (SequenceFrame Nat) :=
  if item.startsMessage then [] else frames

def endsStream (ended : Bool) : ReadItem → Bool
  | .marker => true
  | .message _ => false
  | .continuation _ => ended

def messageId (id : Option Nat) : ReadItem → Option Nat
  | .marker => none
  | .message fragment => some fragment.start
  | .continuation _ => id

/-- The item can be read by a consumer with these frames: its fragment is one of the schema and
begins where the reader rests. -/
structure Sits (s : Schema) (frames : List (SequenceFrame Nat)) (item : ReadItem) : Prop where
  fragment : ∀ f, item.fragment? = some f → s.fragment? f.start = some f
  rests : ∀ f, item.fragment? = some f → s.Rests ⟨f.start, item.framesIn frames⟩
  message : ∀ f, item = .message f → s.isMessageStart f.start = true

theorem sits_marker (s : Schema) (frames : List (SequenceFrame Nat)) : Sits s frames .marker :=
  ⟨fun _ h => (nomatch h), fun _ h => (nomatch h), fun _ h => (nomatch h)⟩

theorem sits_message {s : Schema} (hs : s.LaidOut) (frames : List (SequenceFrame Nat)) {id : Nat}
    {f : Fragment} (hf : s.fragment? id = some f) (hstart : s.isMessageStart id = true) :
    Sits s frames (.message f) := by
  obtain ⟨hid, e, extent, he, -⟩ := Schema.fragment?_eq_some hf
  obtain rfl : id = f.start := by omega
  refine ⟨?_, ?_, ?_⟩
  · intro g hg
    cases hg
    exact hf
  · intro g hg
    cases hg
    refine ⟨⟨Nat.le_of_lt (Schema.lt_size_of_getElem? he), ?_, fun frame h => (nomatch h)⟩, .inr ?_⟩
    · exact (Schema.bodies_of_isMessageStart hs hstart).symm
    · rw [hf]
      rfl
  · intro g hg
    cases hg
    exact hstart

theorem sits_of_announces {p : Pipe} (hs : p.schema.LaidOut) {item : ReadItem}
    (h : p.Announces item) (frames : List (SequenceFrame Nat)) : Sits p.schema frames item := by
  obtain ⟨id, hid, hitem⟩ := h
  cases id with
  | endOfStream =>
    cases hitem
    exact sits_marker p.schema frames
  | message id =>
    obtain ⟨f, hf, rfl⟩ := Option.map_eq_some_iff.1 hitem
    apply sits_message hs frames hf
    unfold Ring.classifyId at hid
    split at hid
    · cases hid
    · rename_i hinside
      split at hid <;> cases hid
      rename_i hstarts
      rwa [Int.toNat_of_nonneg (by simp at hinside; omega)]

theorem sits_of_continues {p : Pipe} {item : ReadItem} (hfollows : p.consumer.Follows p.schema)
    (h : p.Continues item) : Sits p.schema p.consumer.sequences.frames item := by
  obtain ⟨hdue, f, hf, rfl⟩ := h
  cases hnext : p.consumer.nextCursor with
  | none => simp [Pipe.isMessageDue, hnext] at hdue
  | some next =>
    rw [hnext] at hf
    obtain ⟨hposition, -⟩ := Schema.fragment?_eq_some hf
    obtain rfl : next = f.start := Int.ofNat.inj hposition
    refine ⟨?_, ?_, fun g hg => (nomatch hg)⟩
    · intro g hg
      cases hg
      exact hf
    · intro g hg
      cases hg
      exact hfollows.rests _ hnext

end ReadItem

namespace Pipe

structure Begun (p : Pipe) (start : Nat) (item : ReadItem) (bytes : Nat) (q : Pipe) : Prop where
  schema : q.schema = p.schema
  config : q.config = p.config
  producer : q.producer = p.producer
  ring : ∃ tail, (tail = p.ring.tail ∨ tail = q.consumer.tail) ∧ q.ring = { p.ring with tail }
  tail : q.consumer.tail = ⟨start, p.consumer.tail.bytes + p.consumer.fragmentBytes⟩
  next : q.consumer.next = start + item.words p.schema
  fragmentBytes : q.consumer.fragmentBytes = bytes
  byteBase : q.consumer.byteBase =
    if item.startsMessage then q.consumer.tail.bytes else p.consumer.byteBase
  starts : q.consumer.starts = p.consumer.starts.setIfInBounds item.depth start
  hasFragment : q.consumer.hasFragment = true
  isNewMessage : q.consumer.isNewMessage = item.startsMessage
  endOfStream : q.consumer.endOfStream = item.endsStream p.consumer.endOfStream
  messageId : q.consumer.messageId = item.messageId p.consumer.messageId
  seenHead : q.consumer.seenHead = p.consumer.seenHead ∨ q.consumer.seenHead = p.ring.head.words

structure Moved (p : Pipe) (start : Nat) (item : ReadItem) (bytes : Nat) (q : Pipe) : Prop
    extends p.Begun start item bytes q where
  depth_lt : item.depth < p.consumer.starts.size
  cursor : q.consumer.cursor = item.fragment?.map Fragment.start
  marker : item.fragment? = none →
    q.consumer.nextCursor = none ∧ q.consumer.sequences.frames = []
  place : ∀ f, item.fragment? = some f →
    let place := p.schema.leave f (p.ring.lengthOf p.schema start f)
      (item.framesIn p.consumer.sequences.frames)
    q.consumer.nextCursor = some place.position ∧ q.consumer.sequences.frames = place.frames

/-- All of a commit but finding what follows the item. -/
def onto (p : Pipe) (start : Nat) (item : ReadItem) (bytes : Nat) : Pipe :=
  let p := { p with consumer := p.consumer.begin item start (item.words p.schema) bytes }
  let p := p.releaseBatch
  { p with consumer := p.consumer.identify item }

theorem commit_eq_onto (p : Pipe) (start : Nat) (item : ReadItem) (bytes : Nat)
    (h : item.depth < p.consumer.starts.size) :
    p.commit start item bytes =
      match item.fragment? with
      | none => some (p.onto start item bytes)
      | some f =>
        ((p.onto start item bytes).consumer.enter (p.onto start item bytes).schema
          (p.onto start item bytes).ring f).map fun c =>
            { p.onto start item bytes with consumer := c } := by
  unfold commit
  rw [if_pos h]
  rfl

theorem begun_onto (p : Pipe) (start : Nat) (item : ReadItem) (bytes : Nat) :
    p.Begun start item bytes (p.onto start item bytes) := by
  unfold onto releaseBatch
  simp only
  split
  · cases item <;>
      exact ⟨rfl, rfl, rfl, ⟨_, .inr rfl, rfl⟩, rfl, rfl, rfl, rfl, rfl, rfl, rfl, rfl, rfl,
        .inl rfl⟩
  · cases item <;>
      exact ⟨rfl, rfl, rfl, ⟨_, .inl rfl, rfl⟩, rfl, rfl, rfl, rfl, rfl, rfl, rfl, rfl, rfl,
        .inl rfl⟩

theorem Begun.withCursor {p q : Pipe} {start bytes : Nat} {item : ReadItem}
    (h : p.Begun start item bytes q) (cursor nextCursor : Option Nat)
    (sequences : SequenceStack Nat) :
    p.Begun start item bytes
      { q with consumer := { q.consumer with cursor, nextCursor, sequences } } :=
  ⟨h.schema, h.config, h.producer, h.ring, h.tail, h.next, h.fragmentBytes, h.byteBase, h.starts,
    h.hasFragment, h.isNewMessage, h.endOfStream, h.messageId, h.seenHead⟩

theorem Begun.of_look {p q : Pipe} {seen start bytes : Nat} {item : ReadItem}
    (hseen : seen = p.consumer.seenHead ∨ seen = p.ring.head.words)
    (h : (p.look seen).Begun start item bytes q) : p.Begun start item bytes q := by
  refine ⟨h.schema, h.config, h.producer, h.ring, h.tail, h.next, h.fragmentBytes, h.byteBase,
    h.starts, h.hasFragment, h.isNewMessage, h.endOfStream, h.messageId, ?_⟩
  rcases h.seenHead with hsame | hhead
  · rcases hseen with rfl | rfl
    · exact .inl hsame
    · exact .inr hsame
  · exact .inr hhead

theorem sequences_onto (p : Pipe) (start : Nat) (item : ReadItem) (bytes : Nat) :
    (p.onto start item bytes).consumer.sequences.frames =
        item.framesIn p.consumer.sequences.frames ∧
      (p.onto start item bytes).consumer.sequences.capacity = p.consumer.sequences.capacity := by
  have hbegin : (p.onto start item bytes).consumer.sequences =
      (p.consumer.begin item start (item.words p.schema) bytes).sequences := by
    unfold onto releaseBatch
    simp only
    split <;> cases item <;> rfl
  rw [hbegin]
  unfold Consumer.begin ReadItem.framesIn
  cases item.startsMessage with
  | true => exact ⟨SequenceStack.frames_clear _, rfl⟩
  | false => exact ⟨rfl, rfl⟩

theorem depth_lt_of_sits {p : Pipe} (hs : p.schema.LaidOut) (hfollows : p.consumer.Follows p.schema)
    {item : ReadItem} (hsits : item.Sits p.schema p.consumer.sequences.frames) :
    item.depth < p.consumer.starts.size := by
  rw [hfollows.starts]
  cases item with
  | marker | message f => exact Nat.lt_of_lt_of_le Nat.zero_lt_one (Nat.le_add_right 1 _)
  | continuation f =>
    have hf := hsits.fragment f rfl
    obtain ⟨-, e, extent, he, hx, -⟩ := Schema.fragment?_eq_some hf
    show f.depth < _
    rw [Schema.depth_of_fragment? hs hf]
    exact Schema.bodies_lt_maxFragmentDepth hs he (by rw [hx]; rfl)

/-- An item that sits where the reader is can be moved onto, and the reader's cursor follows. -/
theorem commit_eq {p : Pipe} (hs : p.schema.LaidOut) (hfollows : p.consumer.Follows p.schema)
    {item : ReadItem} (hsits : item.Sits p.schema p.consumer.sequences.frames)
    (start bytes : Nat) :
    ∃ q, p.commit start item bytes = some q ∧ p.Moved start item bytes q ∧
      q.consumer.Follows p.schema := by
  have hdepth := depth_lt_of_sits hs hfollows hsits
  have hbegun := p.begun_onto start item bytes
  obtain ⟨hframes, hcapacity⟩ := p.sequences_onto start item bytes
  rw [hfollows.capacity] at hcapacity
  have hstarts : (p.onto start item bytes).consumer.starts.size = p.schema.maxFragmentDepth := by
    rw [hbegun.starts, Array.size_setIfInBounds, hfollows.starts]
  rw [p.commit_eq_onto start item bytes hdepth]
  cases hfragment : item.fragment? with
  | none =>
    have hmarker : item = .marker := by
      cases item with
      | marker => rfl
      | message f | continuation f => cases hfragment
    subst hmarker
    have hcursor : (p.onto start .marker bytes).consumer.cursor = none ∧
        (p.onto start .marker bytes).consumer.nextCursor = none := ⟨rfl, rfl⟩
    refine ⟨_, rfl, ⟨hbegun, hdepth, hcursor.1, fun _ => ⟨hcursor.2, hframes⟩,
      fun f h => (nomatch h)⟩, hstarts, hcapacity, fun _ => hframes, fun next h => ?_⟩
    rw [hcursor.2] at h
    cases h
  | some f =>
    have hrests := hsits.rests f hfragment
    rw [← hframes] at hrests
    generalize p.onto start item bytes = o at hbegun hframes hcapacity hstarts hrests
    obtain ⟨sequences, henter, hplace, hsame⟩ := Consumer.enter_eq hs o.ring
      (hsits.fragment f hfragment) hrests hcapacity
    have hlength : o.ring.lengthOf p.schema o.consumer.tail.words f =
        p.ring.lengthOf p.schema start f := by
      obtain ⟨tail, -, hring⟩ := hbegun.ring
      rw [hring, hbegun.tail]
      rfl
    have hrests' := hrests.leave hs (hsits.fragment f hfragment)
      (p.ring.lengthOf p.schema start f)
    rw [hlength] at henter hplace
    rw [hframes] at henter hplace hrests'
    rw [← hbegun.schema] at henter
    refine ⟨_, Option.map_eq_some_iff.2 ⟨_, henter, rfl⟩,
      ⟨hbegun.withCursor _ _ _, hdepth, by rw [hfragment]; rfl, ?_, ?_⟩, hstarts, hsame, ?_, ?_⟩
    · intro hnone
      rw [hfragment] at hnone
      cases hnone
    · intro g hg
      rw [hfragment] at hg
      cases hg
      rw [hbegun.schema]
      exact ⟨rfl, hplace⟩
    · intro hnone
      cases hnone
    · intro next hnext
      cases hnext
      simp only
      rw [hbegun.schema, hplace]
      exact hrests'

theorem Prepares.moved {p q : Pipe} (hs : p.schema.LaidOut) (hfollows : p.consumer.Follows p.schema)
    {start bytes : Nat} {item : ReadItem} (h : p.Prepares start item bytes q)
    (hsits : item.Sits p.schema p.consumer.sequences.frames) :
    p.Moved start item bytes q ∧ q.consumer.Follows p.schema := by
  obtain ⟨seen, hseen, hcommit⟩ := h.commit
  obtain ⟨r, hr, hmoved, hrests⟩ := commit_eq (p := p.look seen) hs
    ⟨hfollows.starts, hfollows.capacity, hfollows.idle, hfollows.rests⟩ hsits start bytes
  rw [hcommit] at hr
  cases hr
  exact ⟨⟨hmoved.toBegun.of_look hseen, hmoved.depth_lt, hmoved.cursor, hmoved.marker,
    hmoved.place⟩, hrests⟩

/-- No slot and no table entry is ever missing for an item that sits where the reader is. -/
theorem not_stuck {p : Pipe} (hs : p.schema.LaidOut) (hfollows : p.consumer.Follows p.schema)
    {item : ReadItem} (hsits : item.Sits p.schema p.consumer.sequences.frames) (start : Nat) :
    ¬ p.Stuck start item := by
  rintro (hinspect | ⟨seen, bytes, -, hcommit⟩)
  · unfold inspect at hinspect
    split at hinspect
    · cases hinspect
    · cases hfragment : item.fragment? with
      | none =>
        simp only [hfragment] at hinspect
        cases hinspect
      | some f =>
        obtain ⟨last, final, hlast, -⟩ :=
          p.schema.lastOf?_of_fragment? hs (hsits.fragment f hfragment)
        simp only [hfragment, hlast] at hinspect
        split at hinspect
        · split at hinspect <;> cases hinspect
        · cases hinspect
  · obtain ⟨q, hq, -⟩ := commit_eq (p := p.look seen) hs
      ⟨hfollows.starts, hfollows.capacity, hfollows.idle, hfollows.rests⟩ hsits start bytes
    rw [hq] at hcommit
    cases hcommit

end Pipe

end FragmentPipe
