import FragmentPipe.Proofs.Interchange.Bisimulation
import FragmentPipe.Proofs.Interchange.Halves

set_option autoImplicit false

namespace FragmentPipe

namespace SequenceStack

/-- As many slots and the same open frames; the slots above them may hold anything. -/
structure Alike {α : Type} (s t : SequenceStack α) : Prop where
  capacity : t.capacity = s.capacity
  frames : t.frames = s.frames

namespace Alike

section

variable {α : Type} {s t : SequenceStack α}

theorem refl (s : SequenceStack α) : s.Alike s := ⟨rfl, rfl⟩

theorem depth (h : s.Alike t) : t.depth = s.depth := by
  rw [← length_frames, ← length_frames, h.frames]

theorem clear (h : s.Alike t) : s.clear.Alike t.clear :=
  ⟨h.capacity, by rw [frames_clear, frames_clear]⟩

theorem remaining? (h : s.Alike t) : t.remaining? = s.remaining? := by
  unfold SequenceStack.remaining?
  rw [innermost?_eq_head?, innermost?_eq_head?, h.frames]

theorem push (h : s.Alike t) (frame : SequenceFrame α) :
    Option.Rel Alike (s.push frame) (t.push frame) := by
  have hroom : (t.push frame).isSome = (s.push frame).isSome := by
    rw [Bool.eq_iff_iff, push_isSome_iff, push_isSome_iff, h.depth, h.capacity]
  cases hs : s.push frame with
  | none =>
    rw [hs] at hroom
    have ht : t.push frame = none := by simpa using hroom
    rw [ht]
    exact .none
  | some s' =>
    rw [hs] at hroom
    obtain ⟨t', ht⟩ := Option.isSome_iff_exists.1 hroom
    rw [ht]
    refine .some ⟨?_, ?_⟩
    · rw [capacity_push hs, capacity_push ht, h.capacity]
    · rw [frames_push hs, frames_push ht, h.frames]

end

section

variable {s t : SequenceStack Nat}

theorem finishIteration (h : s.Alike t) :
    t.finishIteration.1 = s.finishIteration.1 ∧
      s.finishIteration.2.Alike t.finishIteration.2 := by
  obtain ⟨hbody, hframes⟩ := finishFrame_eq s
  obtain ⟨hbody', hframes'⟩ := finishFrame_eq t
  rw [h.frames] at hbody' hframes'
  refine ⟨hbody'.trans hbody.symm, ?_, hframes'.trans hframes.symm⟩
  rw [capacity_finishIteration, capacity_finishIteration, h.capacity]

theorem walkCloses (h : s.Alike t) (entries : List Entry) (position : Nat) :
    (walkCloses entries position t).1 = (FragmentPipe.walkCloses entries position s).1 ∧
      (FragmentPipe.walkCloses entries position s).2.Alike
        (FragmentPipe.walkCloses entries position t).2 := by
  obtain ⟨hposition, hframes, hcapacity⟩ := walkCloses_eq entries position s
  obtain ⟨hposition', hframes', hcapacity'⟩ := walkCloses_eq entries position t
  rw [h.frames] at hposition' hframes'
  exact ⟨hposition'.trans hposition.symm, by rw [hcapacity, hcapacity', h.capacity],
    hframes'.trans hframes.symm⟩

end

end Alike

end SequenceStack

namespace Consumer

def Alike (c d : Consumer) : Prop :=
  ∃ sequences, c.sequences.Alike sequences ∧ d = { c with sequences }

section

variable {c d : Consumer}

theorem Alike.resumeAt (h : c.Alike d) (schema : Schema) (position : Nat) :
    (c.resumeAt schema position).Alike (d.resumeAt schema position) := by
  obtain ⟨sequences, hsequences, rfl⟩ := h
  obtain ⟨hposition, halike⟩ :=
    hsequences.walkCloses (schema.entries.toList.drop position) position
  refine ⟨_, halike, ?_⟩
  unfold Consumer.resumeAt
  simp only [hposition]

theorem Alike.begin (h : c.Alike d) (item : ReadItem) (start words bytes : Nat) :
    (c.begin item start words bytes).Alike (d.begin item start words bytes) := by
  obtain ⟨sequences, hsequences, rfl⟩ := h
  refine ⟨if item.startsMessage then sequences.clear else sequences, ?_, rfl⟩
  unfold Consumer.begin
  simp only
  split
  · exact hsequences.clear
  · exact hsequences

theorem Alike.identify (h : c.Alike d) (item : ReadItem) :
    (c.identify item).Alike (d.identify item) := by
  obtain ⟨sequences, hsequences, rfl⟩ := h
  cases item <;> exact ⟨sequences, hsequences, rfl⟩

/-- What follows a fragment is found by the open frames alone. -/
theorem Alike.enter (h : c.Alike d) (schema : Schema) (ring : Ring) (fragment : Fragment) :
    Option.Rel Alike (c.enter schema ring fragment) (d.enter schema ring fragment) := by
  obtain ⟨sequences, hsequences, rfl⟩ := h
  unfold Consumer.enter
  cases schema.lastOf? fragment with
  | none => exact .none
  | some found =>
    obtain ⟨last, entry⟩ := found
    simp only
    let entered : Consumer :=
      { c with cursor := some fragment.start, nextCursor := some (last + 1) }
    by_cases hlength : entry.token.isLength = true
    · rw [if_pos hlength, if_pos hlength]
      by_cases hcount : 0 < (ring.word (c.tail.words + entry.wordDistance)).toInt
      · rw [if_pos hcount, if_pos hcount]
        have hpush := hsequences.push
          ⟨(ring.word (c.tail.words + entry.wordDistance)).toInt, last + 1⟩
        generalize c.sequences.push _ = pushed at hpush
        generalize sequences.push _ = pushed' at hpush
        cases hpush with
        | none => exact .none
        | some halike => exact .some ⟨_, halike, rfl⟩
      · rw [if_neg hcount, if_neg hcount]
        cases entry.sequenceEnd with
        | none => exact .some ⟨sequences, hsequences, rfl⟩
        | some position =>
          have halike : entered.Alike { entered with sequences } := ⟨sequences, hsequences, rfl⟩
          exact .some (halike.resumeAt schema position)
    · rw [if_neg hlength, if_neg hlength]
      by_cases hcloses : entry.token.closesSequence = true
      · rw [if_pos hcloses, if_pos hcloses]
        obtain ⟨hbody, halike⟩ := hsequences.finishIteration
        generalize c.sequences.finishIteration = finished at hbody halike
        generalize sequences.finishIteration = finished' at hbody halike
        obtain ⟨body, stack⟩ := finished
        obtain ⟨body', stack'⟩ := finished'
        simp only at hbody halike
        subst hbody
        cases body' with
        | some body => exact .some ⟨stack', halike, rfl⟩
        | none =>
          have hclosed : Alike { entered with sequences := stack }
              { entered with sequences := stack' } := ⟨stack', halike, rfl⟩
          exact .some (hclosed.resumeAt schema (last + 1))
      · rw [if_neg hcloses, if_neg hcloses]
        exact .some ⟨sequences, hsequences, rfl⟩

end

end Consumer

namespace Pipe

def restack (p : Pipe) (sequences : SequenceStack Nat) : Pipe :=
  { p with consumer := { p.consumer with sequences } }

def Alike (p q : Pipe) : Prop :=
  ∃ sequences, p.consumer.sequences.Alike sequences ∧ q = p.restack sequences

theorem alike_refl (p : Pipe) : p.Alike p := ⟨_, .refl _, rfl⟩

def restacking {α : Type} (sequences : SequenceStack Nat) (result : α × Pipe) : α × Pipe :=
  (result.1, result.2.restack sequences)

section Restacked

variable (p : Pipe) (sequences : SequenceStack Nat)

@[simp]
theorem schema_restack : (p.restack sequences).schema = p.schema := rfl

@[simp]
theorem ring_restack : (p.restack sequences).ring = p.ring := rfl

@[simp]
theorem next_restack : (p.restack sequences).consumer.next = p.consumer.next := rfl

@[simp]
theorem nextCursor_restack :
    (p.restack sequences).consumer.nextCursor = p.consumer.nextCursor := rfl

theorem isMessageDue_restack : (p.restack sequences).isMessageDue = p.isMessageDue := rfl

theorem inspect_restack (start : Nat) (item : ReadItem) :
    (p.restack sequences).inspect start item = p.inspect start item := rfl

theorem itemOf?_restack (id : TemplateId) : (p.restack sequences).itemOf? id = p.itemOf? id := rfl

theorem roomFor_restack (request : Mark) :
    (p.restack sequences).roomFor request = restacking sequences (p.roomFor request) :=
  p.roomFor_recast id (fun c => { c with sequences }) request

theorem openFragment_restack (fragment : Fragment) (depth : Nat) :
    (p.restack sequences).openFragment fragment depth =
      (p.openFragment fragment depth).restack sequences :=
  openFragment_recast id (fun c => { c with sequences }) rfl fragment depth

theorem openAt_restack (cursor : Int) (bytes : Nat) :
    (p.restack sequences).openAt cursor bytes = restacking sequences (p.openAt cursor bytes) := by
  unfold openAt
  rw [schema_restack]
  cases p.schema.fragment? cursor with
  | none => rfl
  | some fragment =>
    simp only [roomFor_restack, restacking]
    generalize p.roomFor ⟨fragment.words, bytes⟩ = result
    obtain ⟨room, q⟩ := result
    cases room with
    | false => rfl
    | true =>
      show (if openDepth fragment < q.producer.starts.size then _ else _) =
        restacking sequences (if openDepth fragment < q.producer.starts.size then _ else _)
      split
      · exact congrArg (Prod.mk _) (q.openFragment_restack sequences fragment _)
      · rfl

theorem await_restack (start size : Nat) :
    (p.restack sequences).await start size = restacking sequences (p.await start size) :=
  p.await_relocate id id (fun _ => sequences) start size

theorem releaseBatch_restack :
    (p.restack sequences).releaseBatch = p.releaseBatch.restack sequences :=
  p.releaseBatch_relocate id id fun _ => sequences

theorem act_restack {action : Action} (h : action.movesReader = false) :
    (p.restack sequences).act action = restacking sequences (p.act action) := by
  let stack : Consumer → Consumer := fun c => { c with sequences }
  cases action with
  | relayFrom source =>
    exact congrArg (replying .flag) (p.accept_recast id stack source.consumer _)
  | relayWithin =>
    exact congrArg (replying .flag) (p.accept_recast id stack p.consumer fun ring =>
      ring.repeatPrepared p.consumer)
  | run command =>
    cases command with
    | openAt cursor bytes =>
      exact congrArg (replying .flag) (p.openAt_restack sequences cursor bytes)
    | write loc value =>
      exact congrArg (replying fun _ => .done) (p.write_recast id stack loc value)
    | storeAhead offset value => rfl
    | claim words => exact congrArg (replying fun _ => .done) (p.claim_recast id stack words)
    | publish => exact congrArg (Prod.mk _) (p.publish_recast id stack)
    | publishMarker => exact congrArg answering (publishMarker_recast id stack rfl)
    | rebaseWrites => rfl
    | roomFor request => exact congrArg answering (p.roomFor_restack sequences request)
    | isVisible target =>
      exact congrArg answering (p.isVisible_relocate id id (fun _ => sequences) target)
    | releaseNow => exact congrArg (Prod.mk _) (p.releaseNow_relocate id id fun _ => sequences)
    | rebaseReads => rfl
    | skip words =>
      exact congrArg (replying fun _ => .done) (p.skip_relocate id id (fun _ => sequences) words)
    | read | readMessage | readContinuation | reset => cases h

end Restacked

section Reading

variable {p q : Pipe}

theorem alike_of_consumer (p : Pipe) {c d : Consumer} (h : c.Alike d) :
    Alike { p with consumer := c } { p with consumer := d } := by
  obtain ⟨sequences, hsequences, rfl⟩ := h
  exact ⟨sequences, hsequences, rfl⟩

theorem Alike.consumer (h : p.Alike q) : p.consumer.Alike q.consumer := by
  obtain ⟨sequences, hsequences, rfl⟩ := h
  exact ⟨sequences, hsequences, rfl⟩

theorem sequences_await (p : Pipe) (start size : Nat) :
    (p.await start size).2.consumer.sequences = p.consumer.sequences := by
  obtain ⟨seen, -, ⟨-, h⟩ | ⟨-, -, -, h⟩ | ⟨-, -, -, h⟩⟩ := p.await_cases start size <;> rw [h] <;>
    rfl

theorem Alike.releaseBatch (h : p.Alike q) : p.releaseBatch.Alike q.releaseBatch := by
  obtain ⟨sequences, hsequences, rfl⟩ := h
  refine ⟨sequences, ?_, p.releaseBatch_restack sequences⟩
  unfold Pipe.releaseBatch
  split <;> exact hsequences

theorem Alike.identify (h : p.Alike q) (item : ReadItem) :
    Alike { p with consumer := p.consumer.identify item }
      { q with consumer := q.consumer.identify item } := by
  have hidentify := h.consumer.identify item
  obtain ⟨sequences, -, rfl⟩ := h
  exact alike_of_consumer p hidentify

theorem Alike.onto (h : p.Alike q) (start : Nat) (item : ReadItem) (bytes : Nat) :
    (p.onto start item bytes).Alike (q.onto start item bytes) := by
  have hbegin := h.consumer.begin item start (item.words p.schema) bytes
  obtain ⟨sequences, -, rfl⟩ := h
  exact (alike_of_consumer p hbegin).releaseBatch.identify item

theorem Alike.commit (h : p.Alike q) (start : Nat) (item : ReadItem) (bytes : Nat) :
    Option.Rel Alike (p.commit start item bytes) (q.commit start item bytes) := by
  have honto := h.onto start item bytes
  have hstarts : q.consumer.starts = p.consumer.starts := by
    obtain ⟨sequences, -, rfl⟩ := h
    rfl
  by_cases hdepth : item.depth < p.consumer.starts.size
  · rw [p.commit_eq_onto start item bytes hdepth,
      q.commit_eq_onto start item bytes (hstarts ▸ hdepth)]
    generalize p.onto start item bytes = r at honto
    generalize q.onto start item bytes = r' at honto
    cases item.fragment? with
    | none => exact .some honto
    | some fragment =>
      have henter := honto.consumer.enter r.schema r.ring fragment
      obtain ⟨sequences, -, rfl⟩ := honto
      simp only
      generalize r.consumer.enter r.schema r.ring fragment = entered at henter
      change Option.Rel Alike _
        (((r.restack sequences).consumer.enter r.schema r.ring fragment).map _)
      generalize (r.restack sequences).consumer.enter r.schema r.ring fragment = entered'
        at henter
      cases henter with
      | none => exact .none
      | some halike => exact .some (alike_of_consumer r halike)
  · unfold Pipe.commit
    rw [if_neg hdepth, if_neg (hstarts ▸ hdepth)]
    exact .none

theorem Alike.prepare (h : p.Alike q) (start : Nat) (item : ReadItem) :
    Matches Alike (p.prepare start item) (q.prepare start item) := by
  obtain ⟨sequences, hsequences, rfl⟩ := h
  rw [← p.sequences_await start (item.words p.schema)] at hsequences
  unfold Pipe.prepare
  simp only [schema_restack, await_restack, restacking]
  generalize p.await start (item.words p.schema) = result at hsequences ⊢
  obtain ⟨visible, r⟩ := result
  have halike : r.Alike (r.restack sequences) := ⟨sequences, hsequences, rfl⟩
  cases visible with
  | error cause => exact ⟨rfl, halike⟩
  | ok visible =>
    cases visible with
    | false => exact ⟨rfl, halike⟩
    | true =>
      simp only [inspect_restack]
      cases r.inspect start item with
      | error fault => exact ⟨rfl, halike⟩
      | ok bytes =>
        have hcommit := halike.commit start item bytes
        simp only
        generalize r.commit start item bytes = moved at hcommit
        generalize (r.restack sequences).commit start item bytes = moved' at hcommit
        cases hcommit with
        | none => exact ⟨rfl, halike⟩
        | some hmoved => exact ⟨rfl, hmoved⟩

theorem Alike.readMessage (h : p.Alike q) : Matches Alike p.readMessage q.readMessage := by
  obtain ⟨sequences, hsequences, rfl⟩ := h
  rw [← p.sequences_await p.consumer.next (p.schema.idDistance + 1)] at hsequences
  unfold Pipe.readMessage
  simp only [next_restack, schema_restack, await_restack, restacking]
  generalize p.await p.consumer.next (p.schema.idDistance + 1) = result at hsequences ⊢
  obtain ⟨visible, r⟩ := result
  have halike : r.Alike (r.restack sequences) := ⟨sequences, hsequences, rfl⟩
  cases visible with
  | error cause => exact ⟨rfl, halike⟩
  | ok visible =>
    cases visible with
    | false => exact ⟨rfl, halike⟩
    | true =>
      simp only [ring_restack, schema_restack]
      generalize r.ring.classifyId r.schema _ _ = classified
      cases classified with
      | error cause => exact ⟨rfl, halike⟩
      | ok id =>
        simp only [itemOf?_restack]
        cases r.itemOf? id with
        | none => exact ⟨rfl, halike⟩
        | some item => exact halike.prepare p.consumer.next item

theorem Alike.readContinuation (h : p.Alike q) :
    Matches Alike p.readContinuation q.readContinuation := by
  have hprepare := h.prepare p.consumer.next
  obtain ⟨sequences, hsequences, rfl⟩ := h
  unfold Pipe.readContinuation
  rw [isMessageDue_restack]
  simp only [nextCursor_restack, schema_restack]
  split
  · exact ⟨rfl, sequences, hsequences, rfl⟩
  · exact hprepare _

theorem Alike.read (h : p.Alike q) : Matches Alike p.read q.read := by
  have hmessage := h.readMessage
  have hcontinuation := h.readContinuation
  have hdue : q.isMessageDue = p.isMessageDue := by
    obtain ⟨sequences, -, rfl⟩ := h
    rfl
  unfold Pipe.read
  rw [hdue]
  split
  · exact hmessage
  · exact hcontinuation

theorem Alike.reset (h : p.Alike q) : p.reset.Alike q.reset := by
  obtain ⟨sequences, hsequences, rfl⟩ := h
  exact ⟨sequences.clear, hsequences.clear, rfl⟩

theorem Alike.act (h : p.Alike q) (action : Action) :
    Matches Alike (p.act action) (q.act action) := by
  cases hmoves : action.movesReader with
  | false =>
    obtain ⟨sequences, hsequences, rfl⟩ := h
    rw [act_restack p sequences hmoves]
    exact ⟨rfl, sequences, (p.keepsReader_act hmoves).sequences ▸ hsequences, rfl⟩
  | true =>
    cases action with
    | relayFrom | relayWithin => cases hmoves
    | run command =>
      cases command with
      | openAt | write | storeAhead | claim | publish | publishMarker | rebaseWrites | roomFor
      | isVisible | releaseNow | rebaseReads | skip => cases hmoves
      | read => exact h.read.replying .flag
      | readMessage => exact h.readMessage.replying .flag
      | readContinuation => exact h.readContinuation.replying .flag
      | reset => exact ⟨rfl, h.reset⟩

theorem Alike.ask (h : p.Alike q) (query : Query) : p.ask query = q.ask query := by
  obtain ⟨sequences, hsequences, rfl⟩ := h
  have hconsumer : ∀ style,
      (p.restack sequences).consumer.describe style = p.consumer.describe style := by
    intro style
    simp only [Consumer.describe, restack, hsequences.depth]
  cases query with
  | describe subject style =>
    cases subject with
    | consumer => exact congrArg (fun text => Except.ok (Reply.text text)) (hconsumer style).symm
    | pipe =>
      simp only [Pipe.ask, describeSubject, Pipe.describe, hconsumer]
      rfl
    | ring | producer | schema | config => rfl
  | _ => rfl

theorem Alike.snapshot (h : p.Alike q) : p.snapshot = q.snapshot := by
  obtain ⟨sequences, hsequences, rfl⟩ := h
  simp only [Pipe.snapshot, restack, hsequences.depth, hsequences.remaining?]
  rfl

end Reading

/-- Leftovers in the stack are never observed. -/
theorem bisimulation_alike : Bisimulation Alike where
  refl := alike_refl
  act := Alike.act
  source := by
    rintro p q ⟨sequences, -, rfl⟩ r
    rfl
  ask := Alike.ask
  snapshot := Alike.snapshot

end Pipe

end FragmentPipe
