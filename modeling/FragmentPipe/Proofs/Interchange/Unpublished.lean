import FragmentPipe.Proofs.Interchange.Memory
import FragmentPipe.Proofs.Reader.Visible
import FragmentPipe.Proofs.Writer.Published

set_option autoImplicit false

namespace FragmentPipe

def RingWindow.veil (w : RingWindow) : RingWindow := ⟨w.start, w.words.map fun _ => 0⟩

def PipeError.veil : PipeError → PipeError
  | .badTrailer position count limit window => .badTrailer position count limit window.veil
  | .unknownTemplate id position valid window => .unknownTemplate id position valid window.veil
  | cause => cause

def Fault.veil : Fault → Fault
  | .error cause => .error cause.veil
  | .outOfRange => .outOfRange

theorem mapError_cases {ε α : Type} {look : ε → ε} {a b : Except ε α}
    (h : b.mapError look = a.mapError look) :
    (∃ answer, a = .ok answer ∧ b = .ok answer) ∨
      ∃ e e', a = .error e ∧ b = .error e' ∧ look e' = look e := by
  cases a with
  | ok answer =>
    cases b with
    | ok other =>
      cases h
      exact .inl ⟨_, rfl, rfl⟩
    | error e => cases h
  | error e =>
    cases b with
    | ok other => cases h
    | error e' => exact .inr ⟨e, e', rfl, rfl, Except.error.inj h⟩

namespace Ring

/-- The same counters, and the same words where they are published and not released. -/
structure AgreesLive (r r' : Ring) : Prop where
  head : r'.head = r.head
  tail : r'.tail = r.tail
  capacity : r'.capacity = r.capacity
  words : ∀ position, r.tail.words ≤ position → position < r.head.words →
    r'.word position = r.word position

section Checks

variable {r r' : Ring} {position : Nat}

theorem AgreesLive.release (h : r.AgreesLive r') {tail : Mark} (hle : r.tail.words ≤ tail.words) :
    AgreesLive { r with tail } { r' with tail } :=
  ⟨h.head, rfl, h.capacity, fun i hlow hhigh => h.words i (Nat.le_trans hle hlow) hhigh⟩

theorem veil_window (hcapacity : r'.capacity = r.capacity) (center radius : Nat) :
    (r'.window center radius).veil = (r.window center radius).veil := by
  simp [window, RingWindow.veil, Channel.read, hcapacity, Function.comp_def]

theorem AgreesLive.classifyId (h : r.AgreesLive r') (s : Schema) (id : Int32) (position : Nat) :
    (r'.classifyId s id position).mapError PipeError.veil =
      (r.classifyId s id position).mapError PipeError.veil := by
  unfold Ring.classifyId
  split
  · rfl
  · split
    · rfl
    · exact congrArg (fun window => Except.error (PipeError.unknownTemplate id position _ window))
        (veil_window h.capacity position diagnosticRadius)

variable (hlow : r.tail.words ≤ position) (hhigh : position < r.head.words)

include hlow hhigh

theorem AgreesLive.trailerAt (h : r.AgreesLive r') :
    (r'.trailerAt position).mapError PipeError.veil =
      (r.trailerAt position).mapError PipeError.veil := by
  unfold Ring.trailerAt
  simp only [h.words position hlow hhigh, h.capacity]
  split
  · rfl
  · exact congrArg (fun window => Except.error (PipeError.badTrailer position _ _ window))
      (veil_window h.capacity position diagnosticRadius)

theorem AgreesLive.lengthAt (h : r.AgreesLive r') :
    r'.lengthAt position = r.lengthAt position := by
  unfold Ring.lengthAt
  rw [h.words position hlow hhigh]

end Checks

end Ring

theorem Consumer.enter_congr {s : Schema} {r r' : Ring} {f : Fragment} (c : Consumer)
    (h : ∀ last final, s.lastOf? f = some (last, final) →
      r'.word (c.tail.words + final.wordDistance) = r.word (c.tail.words + final.wordDistance)) :
    c.enter s r' f = c.enter s r f := by
  unfold enter
  cases hlast : s.lastOf? f with
  | none => rfl
  | some found => simp only [h found.1 found.2 hlast]

namespace Pipe

def onRing (p : Pipe) (r : Ring) : Pipe := { p with ring := r }

def AgreesLive (p q : Pipe) : Prop := ∃ r, p.ring.AgreesLive r ∧ q = p.onRing r

def veiling {α : Type} (result : Except Fault α × Pipe) : Except Fault α × Pipe :=
  (result.1.mapError Fault.veil, result.2)

section Rings

variable {p : Pipe} {r : Ring}

theorem schema_onRing (p : Pipe) (r : Ring) : (p.onRing r).schema = p.schema := rfl

theorem ring_onRing (p : Pipe) (r : Ring) : (p.onRing r).ring = r := rfl

theorem consumer_onRing (p : Pipe) (r : Ring) : (p.onRing r).consumer = p.consumer := rfl

theorem itemOf?_onRing (p : Pipe) (r : Ring) (id : TemplateId) :
    (p.onRing r).itemOf? id = p.itemOf? id := rfl

theorem isMessageDue_onRing (p : Pipe) (r : Ring) : (p.onRing r).isMessageDue = p.isMessageDue :=
  rfl

theorem isVisible_onRing (hhead : r.head = p.ring.head) (target : Nat) :
    (p.onRing r).isVisible target =
      ((p.isVisible target).1, (p.isVisible target).2.onRing r) := by
  unfold isVisible onRing
  simp only [hhead]
  split <;> rfl

theorem await_onRing (hhead : r.head = p.ring.head) (start size : Nat) :
    (p.onRing r).await start size = ((p.await start size).1, (p.await start size).2.onRing r) := by
  unfold await
  simp only [isVisible_onRing hhead]
  split
  · rfl
  · rw [consumer_onRing]
    split <;> rfl

theorem ring_skip (p : Pipe) (words : Nat) : (p.skip words).2.ring = p.ring := by
  obtain ⟨q, ⟨seen, -, rfl⟩, ⟨-, hskip⟩ | ⟨cause, hskip⟩⟩ := p.skip_cases words <;> rw [hskip]
  · rfl
  · rfl

theorem skip_onRing (hhead : r.head = p.ring.head) (words : Nat) :
    (p.onRing r).skip words = ((p.skip words).1, (p.skip words).2.onRing r) := by
  unfold skip
  simp only [consumer_onRing, isVisible_onRing hhead]
  split <;> rfl

end Rings

section Steps

variable {p q : Pipe} {item : ReadItem}

theorem Coherent.of_unmoved (h : p.Coherent) (hq : p.Unmoved q) : q.Coherent := by
  have hordered := h.ordered.of_unmoved hq
  have hfollows := hq.follows h.follows
  obtain ⟨seen, -, rfl⟩ := hq
  exact ⟨h.measured, hfollows, hordered⟩

/-- An item that sits where the consumer reads, all of it published. -/
structure InSight (p : Pipe) (item : ReadItem) : Prop where
  coherent : p.Coherent
  sits : item.Sits p.schema p.consumer.sequences.frames
  published : p.consumer.next + item.words p.schema ≤ p.ring.head.words

/-- Whatever word of an item is looked at, it is published. -/
theorem InSight.length_lt (h : p.InSight item) {f : Fragment} {last : Nat} {final : Entry}
    (hf : item.fragment? = some f) (hlast : p.schema.lastOf? f = some (last, final)) :
    p.consumer.next + final.wordDistance < p.ring.head.words :=
  Nat.lt_of_lt_of_le
    (Nat.add_lt_add_left (h.sits.wordDistance_lt h.coherent.measured hf hlast) _) h.published

theorem InSight.released_le (h : p.InSight item) : p.ring.tail.words ≤ p.consumer.next :=
  Nat.le_trans h.coherent.ordered.released.1 h.coherent.ordered.prepared

theorem InSight.inspect (h : p.InSight item) {r : Ring} (hr : p.ring.AgreesLive r) :
    ((p.onRing r).inspect p.consumer.next item).mapError Fault.veil =
      (p.inspect p.consumer.next item).mapError Fault.veil := by
  have hreleased := h.released_le
  have hpublished := h.published
  have hwords := h.sits.words_pos h.coherent.measured
  have htrailer := hr.trailerAt
    (show p.ring.tail.words ≤ p.consumer.next + item.words p.schema - 1 by omega) (by omega)
  unfold Pipe.inspect
  simp only [ring_onRing, schema_onRing]
  rcases mapError_cases htrailer with ⟨bytes, hthere, hhere⟩ | ⟨cause, cause', hthere, hhere, hveil⟩
  · rw [hthere, hhere]
    cases hf : item.fragment? with
    | none => rfl
    | some f =>
      simp only
      cases hlast : p.schema.lastOf? f with
      | none => rfl
      | some found =>
        have hlt := h.length_lt hf hlast
        have hlow : p.ring.tail.words ≤ p.consumer.next + found.2.wordDistance := by omega
        simp only [hr.lengthAt hlow hlt]
  · rw [hthere, hhere]
    exact congrArg (fun cause => Except.error (Fault.error cause)) hveil

theorem onto_onRing (hp : p.Ordered) {r : Ring} (hr : p.ring.AgreesLive r) (item : ReadItem)
    (bytes : Nat) :
    ∃ r', (p.onto p.consumer.next item bytes).ring.AgreesLive r' ∧
      (p.onRing r).onto p.consumer.next item bytes =
        (p.onto p.consumer.next item bytes).onRing r' := by
  have hreleased : p.ring.tail.words ≤ p.consumer.next := Nat.le_trans hp.released.1 hp.prepared
  unfold onto releaseBatch
  rw [consumer_onRing, schema_onRing]
  simp only
  split
  · exact ⟨_, hr.release hreleased, rfl⟩
  · exact ⟨r, hr, rfl⟩

theorem InSight.commit (h : p.InSight item) {r : Ring} (hr : p.ring.AgreesLive r) (bytes : Nat) :
    Option.Rel AgreesLive (p.commit p.consumer.next item bytes)
      ((p.onRing r).commit p.consumer.next item bytes) := by
  have hdepth := depth_lt_of_sits h.coherent.measured.laidOut h.coherent.follows h.sits
  obtain ⟨r', hr', honto⟩ := onto_onRing h.coherent.ordered hr item bytes
  have hbegun := p.begun_onto p.consumer.next item bytes
  rw [p.commit_eq_onto _ item bytes hdepth, (p.onRing r).commit_eq_onto _ item bytes hdepth, honto]
  cases hf : item.fragment? with
  | none => exact .some ⟨r', hr', rfl⟩
  | some f =>
    generalize p.onto p.consumer.next item bytes = o at hr' hbegun
    have henter : o.consumer.enter o.schema r' f = o.consumer.enter o.schema o.ring f := by
      refine o.consumer.enter_congr fun last final hlast => ?_
      obtain ⟨tail, htail, hring⟩ := hbegun.ring
      have hlt := h.length_lt hf (hbegun.schema ▸ hlast)
      have hreleased := h.released_le
      have hstart : o.consumer.tail.words = p.consumer.next := by rw [hbegun.tail]
      refine hr'.words _ ?_ ?_
      · rw [hring]
        rcases htail with rfl | rfl
        · show p.ring.tail.words ≤ _
          omega
        · exact Nat.le_add_right _ _
      · rw [hring, hstart]
        exact hlt
    show Option.Rel AgreesLive ((o.consumer.enter o.schema o.ring f).map _)
      ((o.consumer.enter o.schema r' f).map _)
    rw [henter]
    cases o.consumer.enter o.schema o.ring f with
    | none => exact .none
    | some c => exact .some ⟨r', hr', rfl⟩

theorem AgreesLive.answers (h : p.AgreesLive q) {α : Type} {a b : Except Fault α}
    (hreply : b.mapError Fault.veil = a.mapError Fault.veil) :
    Matches AgreesLive (veiling (a, p)) (veiling (b, q)) := ⟨hreply.symm, h⟩

theorem AgreesLive.prepare (h : p.AgreesLive q) (hp : p.Coherent)
    (hsits : item.Sits p.schema p.consumer.sequences.frames) :
    Matches AgreesLive (veiling (p.prepare p.consumer.next item))
      (veiling (q.prepare p.consumer.next item)) := by
  obtain ⟨r, hr, rfl⟩ := h
  have hbehind := hp.ordered.seenHead
  unfold Pipe.prepare
  simp only [schema_onRing, await_onRing hr.head]
  obtain ⟨seen, hseen, hcases⟩ := p.await_cases p.consumer.next (item.words p.schema)
  have hrel : (p.look seen).AgreesLive ((p.look seen).onRing r) := ⟨r, hr, rfl⟩
  rcases hcases with ⟨hle, hawait⟩ | ⟨-, -, -, hawait⟩ | ⟨-, -, -, hawait⟩ <;> simp only [hawait]
  · have hsight : (p.look seen).InSight item := by
      refine ⟨hp.of_unmoved ⟨seen, hseen, rfl⟩, hsits, ?_⟩
      show p.consumer.next + item.words p.schema ≤ p.ring.head.words
      rcases hseen with rfl | rfl <;> omega
    have hinspect := hsight.inspect hr
    have hcommit := hsight.commit hr
    rw [next_look] at hinspect hcommit
    rcases mapError_cases hinspect with ⟨bytes, hthere, hhere⟩ |
      ⟨fault, other, hthere, hhere, hveil⟩ <;> simp only [hthere, hhere]
    · have hmoves := hcommit bytes
      generalize (p.look seen).commit p.consumer.next item bytes = there at hmoves
      generalize ((p.look seen).onRing r).commit p.consumer.next item bytes = here at hmoves
      cases hmoves with
      | none => exact hrel.answers rfl
      | some hmoved => exact hmoved.answers rfl
    · exact hrel.answers (congrArg Except.error hveil)
  · exact hrel.answers rfl
  · exact hrel.answers rfl

theorem AgreesLive.readMessage (h : p.AgreesLive q) (hp : p.Coherent) :
    Matches AgreesLive (veiling p.readMessage) (veiling q.readMessage) := by
  obtain ⟨r, hr, rfl⟩ := h
  have hbehind := hp.ordered.seenHead
  have hreleased := Nat.le_trans hp.ordered.released.1 hp.ordered.prepared
  unfold Pipe.readMessage
  simp only [schema_onRing, consumer_onRing, await_onRing hr.head]
  obtain ⟨seen, hseen, hcases⟩ := p.await_cases p.consumer.next (p.schema.idDistance + 1)
  have hrel : (p.look seen).AgreesLive ((p.look seen).onRing r) := ⟨r, hr, rfl⟩
  rcases hcases with ⟨hle, hawait⟩ | ⟨-, -, -, hawait⟩ | ⟨-, -, -, hawait⟩ <;> simp only [hawait]
  · have hword : r.word (p.consumer.next + p.schema.idDistance) =
        p.ring.word (p.consumer.next + p.schema.idDistance) := by
      refine hr.words _ (by omega) ?_
      rcases hseen with rfl | rfl <;> omega
    rw [ring_onRing, schema_onRing, ring_look, schema_look, hword]
    rcases mapError_cases (hr.classifyId p.schema
        (p.ring.word (p.consumer.next + p.schema.idDistance))
        (p.consumer.next + p.schema.idDistance)) with
      ⟨id, hthere, hhere⟩ | ⟨cause, other, hthere, hhere, hveil⟩ <;> simp only [hthere, hhere]
    · rw [itemOf?_onRing, itemOf?_look]
      cases hitem : p.itemOf? id with
      | none => exact hrel.answers rfl
      | some item =>
        exact hrel.prepare (hp.of_unmoved ⟨seen, hseen, rfl⟩)
          (ReadItem.sits_of_announces hp.measured.laidOut ⟨id, hthere, hitem⟩ _)
    · exact hrel.answers (congrArg (fun cause => Except.error (Fault.error cause)) hveil)
  · exact hrel.answers rfl
  · exact hrel.answers rfl

theorem AgreesLive.readContinuation (h : p.AgreesLive q) (hp : p.Coherent) :
    Matches AgreesLive (veiling p.readContinuation) (veiling q.readContinuation) := by
  have hsame := h
  obtain ⟨r, hr, rfl⟩ := hsame
  cases hdue : p.isMessageDue with
  | true =>
    have hdue' : (p.onRing r).isMessageDue = true := hdue
    rw [readContinuation_of_due hdue, readContinuation_of_due hdue']
    exact h.answers rfl
  | false =>
    obtain ⟨f, hf⟩ := isSome_of_not_due hp.follows hdue
    have hitem : p.Continues (.continuation f) := ⟨hdue, f, hf, rfl⟩
    have hitem' : (p.onRing r).Continues (.continuation f) := hitem
    rw [readContinuation_eq_prepare hitem, readContinuation_eq_prepare hitem']
    exact h.prepare hp (ReadItem.sits_of_continues hp.follows hitem)

theorem AgreesLive.read (h : p.AgreesLive q) (hp : p.Coherent) :
    Matches AgreesLive (veiling p.read) (veiling q.read) := by
  have hsame := h
  obtain ⟨r, hr, rfl⟩ := hsame
  unfold Pipe.read
  rw [isMessageDue_onRing]
  split
  · exact h.readMessage hp
  · exact h.readContinuation hp

theorem AgreesLive.releaseNow (h : p.AgreesLive q) (hp : p.Coherent) :
    p.releaseNow.AgreesLive q.releaseNow := by
  obtain ⟨r, hr, rfl⟩ := h
  unfold Pipe.releaseNow
  rw [consumer_onRing, ring_onRing, hr.tail]
  split
  · exact ⟨_, hr.release hp.ordered.released.1, rfl⟩
  · exact ⟨r, hr, rfl⟩

theorem AgreesLive.reset (h : p.AgreesLive q) : p.reset.AgreesLive q.reset := by
  obtain ⟨r, hr, rfl⟩ := h
  refine ⟨r.clear, ⟨rfl, rfl, ?_, fun i _ hhigh => absurd hhigh (Nat.not_lt_zero i)⟩, rfl⟩
  show r.clear.capacity = p.ring.clear.capacity
  rw [Ring.capacity_clear, Ring.capacity_clear, hr.capacity]

theorem AgreesLive.isVisible (h : p.AgreesLive q) (target : Nat) :
    Matches AgreesLive (p.isVisible target) (q.isVisible target) := by
  obtain ⟨r, hr, rfl⟩ := h
  rw [isVisible_onRing hr.head]
  refine ⟨rfl, r, ?_, rfl⟩
  rw [ring_isVisible]
  exact hr

theorem AgreesLive.skip (h : p.AgreesLive q) (words : Nat) :
    Matches AgreesLive (veiling (p.skip words)) (veiling (q.skip words)) := by
  obtain ⟨r, hr, rfl⟩ := h
  rw [skip_onRing hr.head]
  have hrel : (p.skip words).2.AgreesLive ((p.skip words).2.onRing r) :=
    ⟨r, by rw [ring_skip]; exact hr, rfl⟩
  exact hrel.answers rfl

theorem AgreesLive.veiled {α : Type} {a b : Except Fault α × Pipe}
    (h : Matches AgreesLive (veiling a) (veiling b)) (reply : α → Reply) :
    Matches AgreesLive (veiling (replying reply a)) (veiling (replying reply b)) := by
  have hcommutes : ∀ result : Except Fault α × Pipe,
      veiling (replying reply result) = replying reply (veiling result) := by
    rintro ⟨answer, p⟩
    cases answer <;> rfl
  rw [hcommutes, hcommutes]
  exact h.replying reply

/-- A command of the consuming half answers the same on both and leaves them in agreement. -/
theorem AgreesLive.run (h : p.AgreesLive q) (hp : p.Coherent) {command : Command}
    (hreading : (Action.run command).isProducing = false) :
    Matches AgreesLive (veiling (p.run command)) (veiling (q.run command)) := by
  cases command with
  | openAt | write | storeAhead | claim | publish | publishMarker | rebaseWrites | roomFor =>
    cases hreading
  | isVisible target =>
    have hvisible := h.isVisible target
    exact hvisible.pipes.answers
      (congrArg (fun answer => Except.ok (Reply.flag answer)) hvisible.reply.symm)
  | read => exact veiled (h.read hp) _
  | readMessage => exact veiled (h.readMessage hp) _
  | readContinuation => exact veiled (h.readContinuation hp) _
  | releaseNow => exact (h.releaseNow hp).answers rfl
  | rebaseReads =>
    obtain ⟨r, hr, rfl⟩ := h
    have hrel : p.rebaseReads.AgreesLive (p.onRing r).rebaseReads := ⟨r, hr, rfl⟩
    exact hrel.answers rfl
  | skip words => exact veiled (h.skip words) _
  | reset => exact h.reset.answers rfl

end Steps

def replies (p : Pipe) : List Command → List (Except Fault Reply)
  | [] => []
  | command :: rest => (p.run command).1 :: replies (p.run command).2 rest

section Histories

variable {p q : Pipe} {commands : List Command}

theorem Reachable.runAll {schema : Schema} {config : Config} (h : Reachable schema config p)
    (commands : List Command) : Reachable schema config (p.runAll commands) := by
  induction commands generalizing p with
  | nil => exact h
  | cons command rest ih => exact ih (h.act (.run command))

theorem AgreesLive.runAll (h : p.AgreesLive q) (hp : p.Coherent)
    (hreading : ∀ command ∈ commands, (Action.run command).isProducing = false) :
    (q.replies commands).map (Except.mapError Fault.veil) =
        (p.replies commands).map (Except.mapError Fault.veil) ∧
      (p.runAll commands).AgreesLive (q.runAll commands) := by
  induction commands generalizing p q with
  | nil => exact ⟨rfl, h⟩
  | cons command rest ih =>
    obtain ⟨hreply, hnext⟩ := h.run hp (hreading command List.mem_cons_self)
    obtain ⟨hrest, hlast⟩ := ih hnext (hp.act (.run command))
      fun other hmem => hreading other (List.mem_cons_of_mem _ hmem)
    refine ⟨?_, hlast⟩
    exact List.cons_eq_cons.2 ⟨hreply.symm, hrest⟩

theorem AgreesLive.stays (h : p.AgreesLive q) (hp : p.Ordered) : p.Stays q := by
  obtain ⟨r, hr, rfl⟩ := h
  refine ⟨rfl, rfl, rfl, rfl, rfl, rfl, rfl, fun i hlow hhigh => ?_⟩
  exact hr.words i (Nat.le_trans hp.released.1 hlow) (Nat.lt_of_lt_of_le hhigh hp.unread)

end Histories

end Pipe

end FragmentPipe
