import FragmentPipe.Proofs.Direct.Operations
import FragmentPipe.Proofs.Order

set_option autoImplicit false

namespace FragmentPipe

namespace Consumer

def forget (c : Consumer) : Consumer := { c with seenHead := 0 }

theorem forget_identify (c : Consumer) (item : ReadItem) :
    (c.identify item).forget = c.forget.identify item := by
  cases item <;> rfl

theorem forget_enter (c : Consumer) (schema : Schema) (ring : Ring) (fragment : Fragment) :
    (c.enter schema ring fragment).map forget = c.forget.enter schema ring fragment := by
  unfold enter
  cases hlast : schema.lastOf? fragment with
  | none => rfl
  | some found =>
    obtain ⟨last, entry⟩ := found
    simp only
    by_cases hlength : entry.token.isLength = true
    · rw [if_pos hlength, if_pos hlength]
      by_cases hcount : 0 < (ring.word (c.tail.words + entry.wordDistance)).toInt
      · rw [if_pos hcount, if_pos (by exact hcount), Option.map_map]
        rfl
      · rw [if_neg hcount, if_neg (by exact hcount)]
        cases entry.sequenceEnd <;> rfl
    · rw [if_neg hlength, if_neg hlength]
      by_cases hcloses : entry.token.closesSequence = true
      · rw [if_pos hcloses, if_pos hcloses,
          show c.forget.sequences.finishIteration = c.sequences.finishIteration from rfl]
        cases hfinish : c.sequences.finishIteration with
        | mk body sequences => cases body <;> rfl
      · rw [if_neg hcloses, if_neg hcloses]
        rfl

end Consumer

namespace Pipe

section Forgetting

variable (p : Pipe)

theorem forget_storeTrailer : p.storeTrailer.forget = p.forget.storeTrailer := by
  unfold storeTrailer
  cases hpending : p.producer.pending <;> simp [forget, hpending]

theorem forget_publish : p.publish.forget = p.forget.publish := by
  unfold publish
  rw [← forget_storeTrailer]
  rfl

theorem forget_openFragment (fragment : Fragment) (depth : Nat) :
    (p.openFragment fragment depth).forget = p.forget.openFragment fragment depth := by
  unfold openFragment
  rw [← forget_storeTrailer]
  cases fragment.startsMessage <;> rfl

theorem forget_append (c : Consumer) (transfer : Ring → Mark → Ring) :
    (p.append c transfer).forget = p.forget.append c transfer := by
  unfold append
  rw [forget_publish, ← forget_publish p]
  cases c.isNewMessage <;> rfl

theorem forget_releaseBatch : p.releaseBatch.forget = p.forget.releaseBatch := by
  unfold releaseBatch
  by_cases hdue : p.consumer.batchCountdown ≤ 0
  · rw [if_pos hdue, if_pos (by exact hdue)]
    rfl
  · rw [if_neg hdue, if_neg (by exact hdue)]

theorem forget_releaseNow : p.releaseNow.forget = p.forget.releaseNow := by
  unfold releaseNow
  by_cases hheld : p.consumer.batchCountdown ≠ p.consumer.batchRelease ∨
      p.ring.tail.words ≠ p.consumer.tail.words
  · rw [if_pos hheld, if_pos (by exact hheld)]
    rfl
  · rw [if_neg hheld, if_neg (by exact hheld)]

theorem forget_onto (start : Nat) (item : ReadItem) (bytes : Nat) :
    (p.onto start item bytes).forget = p.forget.onto start item bytes := by
  let begun : Pipe :=
    { p with consumer := p.consumer.begin item start (item.words p.schema) bytes }
  calc (p.onto start item bytes).forget
    _ = { begun.releaseBatch.forget with
          consumer := (begun.releaseBatch.consumer.identify item).forget } := rfl
    _ = { begun.releaseBatch.forget with
          consumer := begun.releaseBatch.forget.consumer.identify item } := by
        rw [Consumer.forget_identify]
        rfl
    _ = { begun.forget.releaseBatch with
          consumer := begun.forget.releaseBatch.consumer.identify item } := by
        rw [forget_releaseBatch]
    _ = p.forget.onto start item bytes := rfl

theorem forget_commit (start : Nat) (item : ReadItem) (bytes : Nat) :
    (p.commit start item bytes).map forget = p.forget.commit start item bytes := by
  by_cases hdepth : item.depth < p.consumer.starts.size
  · rw [p.commit_eq_onto start item bytes hdepth, p.forget.commit_eq_onto start item bytes hdepth,
      ← forget_onto]
    generalize p.onto start item bytes = q
    cases item.fragment? with
    | none => rfl
    | some fragment =>
      have henter : (q.consumer.enter q.schema q.ring fragment).map Consumer.forget =
          q.forget.consumer.enter q.forget.schema q.forget.ring fragment :=
        q.consumer.forget_enter q.schema q.ring fragment
      simp only
      rw [← henter, Option.map_map, Option.map_map]
      rfl
  · unfold commit
    rw [if_neg hdepth, if_neg (by exact hdepth)]
    rfl

end Forgetting

def forgetting {α : Type} (result : α × Pipe) : α × Pipe := (result.1, result.2.forget)

theorem storeWords_forget (p : Pipe) (loc : Locator) (words : List Int32) :
    p.forget.storeWords loc words = forgetting (p.storeWords loc words) := by
  unfold storeWords
  rw [show p.forget.producer.position? loc = p.producer.position? loc from rfl]
  cases p.producer.position? loc <;> rfl

section Writing

variable {p : Pipe} (h : p.Ordered)

include h

/-- The answer is that of the released tail, and a refusal has looked at it. -/
theorem Ordered.roomFor_eq (request : Mark) :
    ∃ seen, p.roomFor request = (Direct.roomFor p request, p.glance seen) ∧
      (Direct.roomFor p request = false → seen = p.ring.tail) := by
  rcases p.roomFor_cases request with ⟨seen, hseen, hfits, hroom⟩ | ⟨hfull, hroom⟩
  · have hdirect : Direct.roomFor p request = true := decide_eq_true (h.fits hseen hfits)
    refine ⟨seen, by rw [hroom, hdirect], fun hrefused => ?_⟩
    rw [hdirect] at hrefused
    cases hrefused
  · have hdirect : Direct.roomFor p request = false := decide_eq_false hfull
    exact ⟨p.ring.tail, by rw [hroom, hdirect], fun _ => rfl⟩

theorem openAt_forget (cursor : Int) (bytes : Nat) :
    Direct.openAt p.forget cursor bytes = forgetting (p.openAt cursor bytes) := by
  unfold Direct.openAt openAt
  rw [show p.forget.schema = p.schema from rfl]
  cases hfragment : p.schema.fragment? cursor with
  | none => rfl
  | some fragment =>
    obtain ⟨seen, hroom, -⟩ := h.roomFor_eq ⟨fragment.words, bytes⟩
    simp only [hroom]
    rw [show Direct.roomFor p.forget = Direct.roomFor p from rfl]
    split
    · show (if openDepth fragment < p.producer.starts.size then
          (Except.ok true, p.forget.openFragment fragment (openDepth fragment))
        else (Except.error Fault.outOfRange, p.forget)) = forgetting
          (if openDepth fragment < p.producer.starts.size then
            (Except.ok true, (p.glance seen).openFragment fragment (openDepth fragment))
          else (Except.error Fault.outOfRange, p.glance seen))
      split
      · exact congrArg (Prod.mk _) (forget_openFragment (p.glance seen) fragment _).symm
      · rfl
    · rfl

theorem publishMarker_forget : Direct.publishMarker p.forget = forgetting p.publishMarker := by
  unfold Direct.publishMarker publishMarker
  rw [← forget_storeTrailer]
  obtain ⟨seen, hroom, -⟩ :=
    h.storeTrailer.roomFor_eq (.ofWords (distance p.storeTrailer.schema.markerWords))
  simp only [hroom]
  rw [show Direct.roomFor p.storeTrailer.forget = Direct.roomFor p.storeTrailer from rfl,
    show p.storeTrailer.forget.schema = p.storeTrailer.schema from rfl]
  split
  · exact congrArg (Prod.mk _)
      (forget_publish (p.storeTrailer.glance seen).rebaseWrites.stampMarker).symm
  · rfl

theorem claim_forget (words : Nat) :
    Direct.claim p.forget words = forgetting (p.claim words) := by
  unfold Direct.claim claim
  obtain ⟨seen, hroom, hlast⟩ := h.roomFor_eq (.ofWords words)
  simp only [hroom]
  rw [show Direct.roomFor p.forget = Direct.roomFor p from rfl]
  split
  · have htrailer : (p.glance seen).storeTrailer.forget = p.forget.storeTrailer :=
      forget_storeTrailer (p.glance seen)
    rw [← htrailer]
    rfl
  · rename_i hrefused
    rw [hlast (by simpa using hrefused)]
    rfl

theorem storeBytes_forget (loc : Locator) (data : List UInt8) :
    Direct.storeBytes p.forget loc data = forgetting (p.storeBytes loc data) := by
  unfold Direct.storeBytes storeBytes
  obtain ⟨seen, hroom, hlast⟩ := h.roomFor_eq (.ofBytes data.length)
  simp only [hroom]
  rw [show Direct.roomFor p.forget = Direct.roomFor p from rfl]
  cases hfits : Direct.roomFor p (.ofBytes data.length) with
  | false =>
    rw [hlast hfits]
    rfl
  | true =>
    simp only [Bool.not_true, Bool.false_eq_true, ↓reduceIte]
    show (if maxSpan < p.producer.head.bytes - p.producer.byteBase + data.length then _
        else if loc.depth < p.producer.starts.size then _ else _) = forgetting
      (if maxSpan < p.producer.head.bytes - p.producer.byteBase + data.length then _
        else if loc.depth < p.producer.starts.size then _ else _)
    split
    · rfl
    · split
      · exact storeWords_forget ((p.glance seen).appendBytes data) loc _
      · rfl

theorem write_forget (loc : Locator) (value : Value) :
    Direct.write p.forget loc value = forgetting (p.write loc value) := by
  cases value with
  | word value => exact storeWords_forget p loc _
  | long value => exact storeWords_forget p loc _
  | decimal exponent mantissa => exact storeWords_forget p loc _
  | bytes data => exact storeBytes_forget h loc data

theorem accept_forget (c : Consumer) (transfer : Ring → Mark → Ring) :
    Direct.accept p.forget c transfer = forgetting (p.accept c transfer) := by
  unfold Direct.accept accept
  obtain ⟨seen, hroom, -⟩ := h.roomFor_eq c.extent
  simp only [hroom]
  rw [show Direct.roomFor p.forget = Direct.roomFor p from rfl]
  split
  · split
    · exact congrArg (Prod.mk _) (forget_append (p.glance seen) c transfer).symm
    · rfl
  · rfl

end Writing

section Reading

variable {p : Pipe} (h : p.Ordered)

include h

theorem Ordered.isVisible_eq (target : Nat) :
    ∃ seen, (p.look seen).Ordered ∧
      p.isVisible target = (Direct.isVisible p target, p.look seen) ∧
      (Direct.isVisible p target = false → seen = p.ring.head.words) := by
  have hbehind := h.seenHead
  obtain ⟨seen, hseen, ⟨hle, hvisible⟩ | ⟨hlast, hlt, hvisible⟩⟩ := p.isVisible_cases target
  · have hdirect : Direct.isVisible p target = true := decide_eq_true (by omega)
    refine ⟨seen, h.of_unmoved ⟨seen, hseen, rfl⟩, by rw [hvisible, hdirect], fun hrefused => ?_⟩
    rw [hdirect] at hrefused
    cases hrefused
  · have hdirect : Direct.isVisible p target = false := decide_eq_false (by omega)
    exact ⟨seen, h.of_unmoved ⟨seen, hseen, rfl⟩, by rw [hvisible, hdirect], fun _ => hlast⟩

theorem Ordered.await_eq (start size : Nat) :
    ∃ seen, (p.look seen).Ordered ∧
      p.await start size = (Direct.await p start size, p.look seen) := by
  unfold await Direct.await
  obtain ⟨seen, hordered, hvisible, hlast⟩ := h.isVisible_eq (start + size)
  refine ⟨seen, hordered, ?_⟩
  simp only [hvisible]
  cases hdirect : Direct.isVisible p (start + size) with
  | true => rfl
  | false =>
    rw [hlast hdirect]
    by_cases hsplit : start < p.ring.head.words <;>
      simp only [Bool.false_eq_true, ↓reduceIte, look, hsplit]

theorem prepare_forget (start : Nat) (item : ReadItem) :
    Direct.prepare p.forget start item = forgetting (p.prepare start item) := by
  unfold Direct.prepare prepare
  obtain ⟨seen, -, hawait⟩ := h.await_eq start (item.words p.schema)
  simp only [hawait]
  rw [show Direct.await p.forget start (item.words p.forget.schema) =
    Direct.await p start (item.words p.schema) from rfl]
  cases Direct.await p start (item.words p.schema) with
  | error cause => rfl
  | ok visible =>
    cases visible with
    | false => rfl
    | true =>
      simp only
      rw [show p.forget.inspect start item = p.inspect start item from rfl,
        show (p.look seen).inspect start item = p.inspect start item from rfl]
      cases p.inspect start item with
      | error fault => rfl
      | ok bytes =>
        simp only
        rw [show p.forget = (p.look seen).forget from rfl, ← forget_commit]
        cases (p.look seen).commit start item bytes <;> rfl

theorem readMessage_forget : Direct.readMessage p.forget = forgetting p.readMessage := by
  unfold Direct.readMessage readMessage
  obtain ⟨seen, hordered, hawait⟩ := h.await_eq p.consumer.next (p.schema.idDistance + 1)
  simp only [hawait]
  rw [show Direct.await p.forget p.forget.consumer.next (p.forget.schema.idDistance + 1) =
    Direct.await p p.consumer.next (p.schema.idDistance + 1) from rfl]
  cases Direct.await p p.consumer.next (p.schema.idDistance + 1) with
  | error cause => rfl
  | ok visible =>
    cases visible with
    | false => rfl
    | true =>
      simp only
      rw [show (p.look seen).ring = p.ring from rfl, show (p.look seen).schema = p.schema from rfl,
        show p.forget.ring = p.ring from rfl, show p.forget.schema = p.schema from rfl,
        show p.forget.consumer.next = p.consumer.next from rfl]
      cases p.ring.classifyId p.schema _ _ with
      | error cause => rfl
      | ok id =>
        simp only
        rw [show (p.look seen).itemOf? id = p.itemOf? id from rfl,
          show p.forget.itemOf? id = p.itemOf? id from rfl]
        cases p.itemOf? id with
        | none => rfl
        | some item => exact prepare_forget hordered p.consumer.next item

theorem readContinuation_forget :
    Direct.readContinuation p.forget = forgetting p.readContinuation := by
  unfold Direct.readContinuation readContinuation
  rw [show p.forget.isMessageDue = p.isMessageDue from rfl,
    show p.forget.consumer.nextCursor = p.consumer.nextCursor from rfl,
    show p.forget.schema = p.schema from rfl]
  cases p.isMessageDue with
  | true => rfl
  | false =>
    simp only [Bool.false_eq_true, ↓reduceIte]
    cases p.schema.fragment? (positionValue p.consumer.nextCursor) with
    | none => rfl
    | some fragment => exact prepare_forget h p.consumer.next (.continuation fragment)

theorem read_forget : Direct.read p.forget = forgetting p.read := by
  unfold Direct.read read
  rw [show p.forget.isMessageDue = p.isMessageDue from rfl]
  split
  · exact readMessage_forget h
  · exact readContinuation_forget h

theorem skip_forget (words : Nat) : Direct.skip p.forget words = forgetting (p.skip words) := by
  unfold Direct.skip skip
  obtain ⟨seen, -, hvisible, hlast⟩ := h.isVisible_eq (p.consumer.next + words)
  simp only [hvisible]
  rw [show p.forget.consumer.next = p.consumer.next from rfl,
    show Direct.isVisible p.forget = Direct.isVisible p from rfl]
  cases hdirect : Direct.isVisible p (p.consumer.next + words) with
  | true => rfl
  | false =>
    rw [hlast hdirect]
    rfl

end Reading

theorem ask_forget (p : Pipe) (query : Query) : p.forget.ask query = p.ask query := by
  cases query with
  | describe subject style => cases subject <;> rfl
  | _ => rfl

/-- A command answers as it would without memory, and what it leaves differs in memory alone. -/
theorem run_forget {p : Pipe} (h : p.Ordered) (command : Command) :
    Direct.run p.forget command = forgetting (p.run command) := by
  cases command with
  | openAt cursor bytes => exact congrArg (replying .flag) (openAt_forget h cursor bytes)
  | write loc value => exact congrArg (replying fun _ => .done) (write_forget h loc value)
  | storeAhead offset value => rfl
  | claim words => exact congrArg (replying fun _ => .done) (claim_forget h words)
  | publish => exact congrArg (Prod.mk _) p.forget_publish.symm
  | publishMarker => exact congrArg answering (publishMarker_forget h)
  | rebaseWrites => rfl
  | roomFor request =>
    obtain ⟨seen, hroom, -⟩ := h.roomFor_eq request
    rw [run, hroom]
    rfl
  | isVisible target =>
    obtain ⟨seen, -, hvisible, -⟩ := h.isVisible_eq target
    rw [run, hvisible]
    rfl
  | read => exact congrArg (replying .flag) (read_forget h)
  | readMessage => exact congrArg (replying .flag) (readMessage_forget h)
  | readContinuation => exact congrArg (replying .flag) (readContinuation_forget h)
  | releaseNow => exact congrArg (Prod.mk _) p.forget_releaseNow.symm
  | rebaseReads => rfl
  | skip words => exact congrArg (replying fun _ => .done) (skip_forget h words)
  | reset => rfl

theorem relayFrom_forget {p : Pipe} (h : p.Ordered) (source : Pipe) :
    Direct.relayFrom p.forget source.forget = forgetting (p.relayFrom source) :=
  accept_forget h source.consumer fun ring => ring.copyPrepared source.ring source.consumer

theorem relayWithin_forget {p : Pipe} (h : p.Ordered) :
    Direct.relayWithin p.forget = forgetting p.relayWithin :=
  accept_forget h p.consumer fun ring => ring.repeatPrepared p.consumer

end Pipe

namespace Network

def forget (n : Network) : Network := ⟨n.pipes.map Pipe.forget⟩

def replay (step : Network → Step → Except Fault Reply × Network) (n : Network) :
    List Step → List (Except Fault Reply) × Network
  | [] => ([], n)
  | s :: rest =>
    let (reply, next) := step n s
    let (replies, last) := replay step next rest
    (reply :: replies, last)

def Lawful (n : Network) : Prop :=
  ∀ p ∈ n.pipes, ∃ schema config, schema.Accepted ∧ Pipe.Reachable schema config p

variable {n : Network}

theorem Lawful.ordered (h : n.Lawful) {i : Nat} {p : Pipe} (hp : n.pipes[i]? = some p) :
    p.Ordered := by
  obtain ⟨schema, config, haccepted, hreachable⟩ := h p (Array.mem_of_getElem? hp)
  exact hreachable.ordered haccepted

theorem Lawful.act (h : n.Lawful) {i : Nat} {p : Pipe} (hp : n.pipes[i]? = some p)
    (action : Action) : Lawful ⟨n.pipes.setIfInBounds i (p.act action).2⟩ := by
  obtain ⟨schema, config, haccepted, hreachable⟩ := h p (Array.mem_of_getElem? hp)
  intro q hq
  rcases Array.mem_or_eq_of_mem_setIfInBounds hq with hq | rfl
  · exact h q hq
  · exact ⟨schema, config, haccepted, hreachable.act action⟩

theorem getElem?_forget (i : Nat) : n.forget.pipes[i]? = n.pipes[i]?.map Pipe.forget := by
  simp [forget]

theorem forget_setIfInBounds (i : Nat) (p : Pipe) :
    Network.forget ⟨n.pipes.setIfInBounds i p⟩ = ⟨n.forget.pipes.setIfInBounds i p.forget⟩ := by
  simp [forget]

theorem Lawful.step (h : n.Lawful) (s : Step) : (n.step s).2.Lawful ∧
    Direct.step n.forget s = ((n.step s).1, (n.step s).2.forget) := by
  unfold Direct.step Network.step
  cases s with
  | command i command =>
    simp only [getElem?_forget]
    cases hp : n.pipes[i]? with
    | none => exact ⟨h, rfl⟩
    | some p =>
      refine ⟨h.act hp (.run command), ?_⟩
      simp only [Option.map_some, Pipe.run_forget (h.ordered hp) command]
      rw [forget_setIfInBounds]
      rfl
  | query i query =>
    simp only [getElem?_forget]
    cases hp : n.pipes[i]? with
    | none => exact ⟨h, rfl⟩
    | some p =>
      refine ⟨h, ?_⟩
      simp only [Option.map_some, Pipe.ask_forget]
  | relay source target =>
    simp only [getElem?_forget]
    cases horigin : n.pipes[source]? with
    | none => exact ⟨h, rfl⟩
    | some origin =>
      cases hp : n.pipes[target]? with
      | none => exact ⟨h, rfl⟩
      | some p =>
        by_cases hsame : source = target
        · refine ⟨?_, ?_⟩
          · simp only [hsame, ↓reduceIte]
            exact h.act hp .relayWithin
          · simp only [Option.map_some, hsame, ↓reduceIte,
              Pipe.relayWithin_forget (h.ordered hp)]
            rw [forget_setIfInBounds]
            rfl
        · refine ⟨?_, ?_⟩
          · simp only [hsame, ↓reduceIte]
            exact h.act hp (.relayFrom origin)
          · simp only [Option.map_some, hsame, ↓reduceIte,
              Pipe.relayFrom_forget (h.ordered hp)]
            rw [forget_setIfInBounds]
            rfl
  | join producer consumer =>
    simp only
    split
    · exact ⟨h, rfl⟩
    · exact ⟨h, rfl⟩

/-- Every list of steps is answered as it would be without memory, by induction with the lawful
networks as invariant. -/
theorem Lawful.replay (h : n.Lawful) (steps : List Step) :
    (Network.replay Network.step n steps).2.Lawful ∧
      Network.replay Direct.step n.forget steps =
        ((Network.replay Network.step n steps).1,
          (Network.replay Network.step n steps).2.forget) := by
  induction steps generalizing n with
  | nil => exact ⟨h, rfl⟩
  | cons s rest ih =>
    obtain ⟨hnext, hstep⟩ := h.step s
    obtain ⟨hlast, hrest⟩ := ih hnext
    refine ⟨hlast, ?_⟩
    unfold Network.replay
    simp only [hstep, hrest]

end Network

end FragmentPipe
