import FragmentPipe.Proofs.Runs

set_option autoImplicit false

namespace FragmentPipe

namespace Pipe

section Trailer

variable (p : Pipe)

@[simp] theorem schema_storeTrailer : p.storeTrailer.schema = p.schema :=
  (p.keepsConsumer_storeTrailer).schema

@[simp] theorem consumer_storeTrailer : p.storeTrailer.consumer = p.consumer :=
  (p.keepsConsumer_storeTrailer).consumer

@[simp] theorem head_storeTrailer : p.storeTrailer.producer.head = p.producer.head := by
  unfold storeTrailer
  split <;> rfl

@[simp] theorem seenTail_storeTrailer : p.storeTrailer.producer.seenTail = p.producer.seenTail := by
  unfold storeTrailer
  split <;> rfl

@[simp] theorem starts_storeTrailer : p.storeTrailer.producer.starts = p.producer.starts := by
  unfold storeTrailer
  split <;> rfl

@[simp] theorem byteBase_storeTrailer : p.storeTrailer.producer.byteBase = p.producer.byteBase := by
  unfold storeTrailer
  split <;> rfl

@[simp] theorem fragmentsWritten_storeTrailer :
    p.storeTrailer.producer.fragmentsWritten = p.producer.fragmentsWritten := by
  unfold storeTrailer
  split <;> rfl

@[simp] theorem messagesWritten_storeTrailer :
    p.storeTrailer.producer.messagesWritten = p.producer.messagesWritten := by
  unfold storeTrailer
  split <;> rfl

@[simp] theorem pending_storeTrailer : p.storeTrailer.producer.pending = none := by
  unfold storeTrailer
  split
  · assumption
  · rfl

@[simp] theorem ring_head_storeTrailer : p.storeTrailer.ring.head = p.ring.head := by
  unfold storeTrailer
  split <;> rfl

@[simp] theorem ring_tail_storeTrailer : p.storeTrailer.ring.tail = p.ring.tail := by
  unfold storeTrailer
  split <;> rfl

@[simp] theorem bytes_storeTrailer : p.storeTrailer.ring.bytes = p.ring.bytes := by
  unfold storeTrailer
  split <;> rfl

@[simp] theorem capacity_storeTrailer : p.storeTrailer.ring.capacity = p.ring.capacity := by
  unfold storeTrailer
  split
  · rfl
  · exact p.ring.capacity_setWord _ _

variable {p}

theorem storeTrailer_of_none (h : p.producer.pending = none) : p.storeTrailer = p := by
  unfold storeTrailer
  rw [h]

theorem publish_of_none (h : p.producer.pending = none) :
    p.publish = { p with ring := { p.ring with head := p.producer.head } } := by
  unfold publish
  rw [storeTrailer_of_none h]

end Trailer

/-- A fragment is opened: what was open is complete, a message has its id, and the fragment's words
lie behind the old head. -/
structure Opens (f : Fragment) (depth : Nat) (p q : Pipe) : Prop where
  schema : q.schema = p.schema
  consumer : q.consumer = p.consumer
  ring : q.ring =
    if f.startsMessage then
      p.storeTrailer.ring.setWord (p.producer.head.words + p.schema.idDistance)
        (Int32.ofNat f.start)
    else p.storeTrailer.ring
  seenTail : q.producer.seenTail = p.producer.seenTail
  head : q.producer.head = p.producer.head + .ofWords f.words
  byteBase : q.producer.byteBase =
    if f.startsMessage then p.producer.head.bytes else p.producer.byteBase
  starts : q.producer.starts = p.producer.starts.setIfInBounds depth p.producer.head.words
  pending : q.producer.pending =
    some ⟨p.producer.head.words + f.words - 1, p.producer.head.bytes⟩

theorem Opens.ring_ends {f : Fragment} {depth : Nat} {p q : Pipe} (h : Opens f depth p q) :
    q.ring.head = p.ring.head ∧ q.ring.tail = p.ring.tail ∧ q.ring.bytes = p.ring.bytes ∧
      q.ring.capacity = p.ring.capacity := by
  rw [h.ring]
  split
  · exact ⟨p.ring_head_storeTrailer, p.ring_tail_storeTrailer, p.bytes_storeTrailer, by simp⟩
  · simp

theorem opens_openFragment (p : Pipe) (f : Fragment) (depth : Nat) :
    Opens f depth p (p.openFragment f depth) := by
  have hkeeps := p.keepsConsumer_openFragment f depth
  refine ⟨hkeeps.schema, hkeeps.consumer, ?_, ?_, ?_, ?_, ?_, ?_⟩ <;>
    cases hstarts : f.startsMessage <;>
    simp [openFragment, claimFragment, stampMessage, rebaseWrites, hstarts]

theorem openFragment_storeTrailer (p : Pipe) (f : Fragment) (depth : Nat) :
    p.storeTrailer.openFragment f depth = p.openFragment f depth := by
  unfold openFragment
  rw [storeTrailer_of_none p.pending_storeTrailer]

theorem opens_storeTrailer (p : Pipe) (f : Fragment) (depth : Nat) :
    Opens f depth p.storeTrailer (p.openFragment f depth) := by
  have hopens := opens_openFragment p.storeTrailer f depth
  rw [openFragment_storeTrailer] at hopens
  exact hopens

/-- A marker is written: what was open is complete, and everything is published. -/
structure Marks (seen : Mark) (p q : Pipe) : Prop where
  schema : q.schema = p.schema
  consumer : q.consumer = p.consumer
  words : q.ring.words =
    (p.storeTrailer.ring.words.set (p.producer.head.words + p.schema.idDistance) (-1)).set
      (p.producer.head.words + distance p.schema.markerWords - 1) 0
  bytes : q.ring.bytes = p.ring.bytes
  tail : q.ring.tail = p.ring.tail
  seenTail : q.producer.seenTail = seen
  head : q.producer.head = p.producer.head + .ofWords (distance p.schema.markerWords)
  published : q.ring.head = q.producer.head
  byteBase : q.producer.byteBase = p.producer.head.bytes
  starts : q.producer.starts = p.producer.starts
  pending : q.producer.pending = none

theorem Marks.capacity {seen : Mark} {p q : Pipe} (h : Marks seen p q) :
    q.ring.capacity = p.ring.capacity := by
  have hsame := p.capacity_storeTrailer
  unfold Ring.capacity at hsame ⊢
  rw [h.words, h.bytes, Channel.capacity_set, Channel.capacity_set]
  simpa using hsame

theorem marks_publish (p : Pipe) (seen : Mark) :
    Marks seen p (p.storeTrailer.glance seen).rebaseWrites.stampMarker.publish := by
  rw [publish_of_none (p := (p.storeTrailer.glance seen).rebaseWrites.stampMarker)
    p.pending_storeTrailer]
  constructor <;> simp [stampMarker, rebaseWrites, glance, Ring.setWord]

theorem marks_storeTrailer (p : Pipe) (seen : Mark) :
    Marks seen p.storeTrailer (p.storeTrailer.glance seen).rebaseWrites.stampMarker.publish := by
  have hmarks := marks_publish p.storeTrailer seen
  rw [storeTrailer_of_none p.pending_storeTrailer] at hmarks
  exact hmarks

structure Appends (c : Consumer) (transfer : Ring → Mark → Ring) (p q : Pipe) : Prop where
  schema : q.schema = p.schema
  consumer : q.consumer = p.consumer
  ring : q.ring = { transfer { p.storeTrailer.ring with head := p.producer.head } p.producer.head
    with head := p.producer.head + c.extent }
  seenTail : q.producer.seenTail = p.producer.seenTail
  head : q.producer.head = p.producer.head + c.extent
  byteBase : q.producer.byteBase =
    if c.isNewMessage then p.producer.head.bytes else p.producer.byteBase
  starts : q.producer.starts = p.producer.starts
  pending : q.producer.pending = none
  fragmentsWritten : q.producer.fragmentsWritten = p.producer.fragmentsWritten + 1
  messagesWritten : q.producer.messagesWritten =
    if c.isNewMessage && !c.endOfStream then p.producer.messagesWritten + 1
    else p.producer.messagesWritten

theorem appends_append (p : Pipe) (c : Consumer) (transfer : Ring → Mark → Ring) :
    Appends c transfer p (p.append c transfer) := by
  have hkeeps := p.keepsConsumer_append c transfer
  obtain ⟨q, hq⟩ : ∃ q, q = p.publish := ⟨_, rfl⟩
  have hpending : q.producer.pending = none := by
    rw [hq]
    exact p.pending_storeTrailer
  have hbase : (if c.isNewMessage then q.rebaseWrites else q).producer.pending = none := by
    cases c.isNewMessage <;> exact hpending
  refine ⟨hkeeps.schema, hkeeps.consumer, ?_, ?_, ?_, ?_, ?_, ?_, ?_, ?_⟩ <;>
    unfold append <;> rw [publish_of_none (by rw [← hq]; exact hbase)] <;>
    cases c.isNewMessage <;> simp [publish, rebaseWrites]

end Pipe

end FragmentPipe
