import FragmentPipe.Command

set_option autoImplicit false

namespace FragmentPipe

namespace Ring

variable {r : Ring} {position : Nat} {cause : PipeError}

theorem isCorruption_of_trailerAt (h : r.trailerAt position = .error cause) :
    cause.isCorruption = true := by
  unfold trailerAt at h
  simp only at h
  split at h <;> cases h
  rfl

theorem isCorruption_of_lengthAt (h : r.lengthAt position = .error cause) :
    cause.isCorruption = true := by
  unfold lengthAt at h
  simp only at h
  split at h <;> cases h
  rfl

theorem isCorruption_of_classifyId {schema : Schema} {id : Int32}
    (h : r.classifyId schema id position = .error cause) : cause.isCorruption = true := by
  unfold classifyId at h
  split at h
  · cases h
  · split at h <;> cases h
    rfl

theorem trailerAt_of_range (hnonneg : 0 ≤ (r.word position).toInt)
    (hle : (r.word position).toInt ≤ r.capacity.bytes) :
    r.trailerAt position = .ok (r.word position).toInt.toNat := by
  unfold trailerAt
  exact if_pos (by simp [hnonneg, hle])

theorem lengthAt_of_nonneg (h : 0 ≤ (r.word position).toInt) :
    r.lengthAt position = .ok (r.word position).toInt.toNat := by
  unfold lengthAt
  exact if_pos h

theorem lengthAt_of_neg (h : (r.word position).toInt < 0) :
    r.lengthAt position = .error (.negativeLength position (r.word position)) := by
  unfold lengthAt
  exact if_neg (Int.not_le.2 h)

end Ring

namespace Pipe

theorem ok_of_toOption {ε α : Type} {result : Except ε α} {answer : α}
    (h : result.toOption = some answer) : result = .ok answer := by
  cases result with
  | error fault => cases h
  | ok found =>
    cases h
    rfl

theorem eq_ok_of_toOption {α : Type} {result : Except Fault α × Pipe} {answer : α}
    (h : result.1.toOption = some answer) : result = (.ok answer, result.2) :=
  congrArg (fun reply => (reply, result.2)) (ok_of_toOption h)

def glance (p : Pipe) (seen : Mark) : Pipe :=
  { p with producer := { p.producer with seenTail := seen } }

def look (p : Pipe) (seen : Nat) : Pipe :=
  { p with consumer := { p.consumer with seenHead := seen } }

@[simp] theorem schema_look (p : Pipe) (seen : Nat) : (p.look seen).schema = p.schema := rfl
@[simp] theorem ring_look (p : Pipe) (seen : Nat) : (p.look seen).ring = p.ring := rfl
@[simp] theorem next_look (p : Pipe) (seen : Nat) :
    (p.look seen).consumer.next = p.consumer.next := rfl
@[simp] theorem itemOf?_look (p : Pipe) (seen : Nat) (id : TemplateId) :
    (p.look seen).itemOf? id = p.itemOf? id := rfl

def FitsBehind (p : Pipe) (tail request : Mark) : Prop :=
  p.producer.head + request ≤ tail + p.ring.capacity

def advanceHead (p : Pipe) (extent : Mark) : Pipe :=
  { p with producer := { p.producer with head := p.producer.head + extent } }

def appendBytes (p : Pipe) (data : List UInt8) : Pipe :=
  { p with
    ring := p.ring.setBytes p.producer.head.bytes data
    producer := { p.producer with head := p.producer.head + Mark.ofBytes data.length } }

def openDepth (fragment : Fragment) : Nat := if fragment.startsMessage then 0 else fragment.depth

section Writing

variable (p : Pipe)

theorem roomFor_cases (request : Mark) :
    (∃ seen, (seen = p.producer.seenTail ∨ seen = p.ring.tail) ∧ p.FitsBehind seen request ∧
        p.roomFor request = (true, p.glance seen)) ∨
      (¬ p.FitsBehind p.ring.tail request ∧ p.roomFor request = (false, p.glance p.ring.tail)) := by
  unfold roomFor
  by_cases hseen : p.FitsBehind p.producer.seenTail request
  · left
    refine ⟨p.producer.seenTail, .inl rfl, hseen, ?_⟩
    rw [if_pos (by simpa [Producer.fits, FitsBehind] using hseen)]
    rfl
  · rw [if_neg (by simpa [Producer.fits, FitsBehind] using hseen)]
    by_cases htail : p.FitsBehind p.ring.tail request
    · left
      refine ⟨p.ring.tail, .inr rfl, htail, ?_⟩
      simp only [Prod.mk.injEq]
      exact ⟨by simpa [Producer.fits, FitsBehind] using htail, rfl⟩
    · right
      refine ⟨htail, ?_⟩
      simp only [Prod.mk.injEq]
      exact ⟨by simpa [Producer.fits, FitsBehind] using htail, rfl⟩

theorem openAt_cases (cursor : Int) (bytes : Nat) :
    (p.schema.fragment? cursor = none ∧
        p.openAt cursor bytes = (.error (.error (.noFragmentAt cursor)), p)) ∨
      ∃ fragment, p.schema.fragment? cursor = some fragment ∧
        ((∃ seen, (seen = p.producer.seenTail ∨ seen = p.ring.tail) ∧
            p.FitsBehind seen ⟨fragment.words, bytes⟩ ∧
            ((openDepth fragment < p.producer.starts.size ∧ p.openAt cursor bytes =
                (.ok true, (p.glance seen).openFragment fragment (openDepth fragment))) ∨
              (p.producer.starts.size ≤ openDepth fragment ∧
                p.openAt cursor bytes = (.error .outOfRange, p.glance seen)))) ∨
          (¬ p.FitsBehind p.ring.tail ⟨fragment.words, bytes⟩ ∧
            p.openAt cursor bytes = (.ok false, p.glance p.ring.tail))) := by
  unfold openAt
  cases hfragment : p.schema.fragment? cursor with
  | none => exact .inl ⟨rfl, rfl⟩
  | some fragment =>
    refine .inr ⟨fragment, rfl, ?_⟩
    rcases p.roomFor_cases ⟨fragment.words, bytes⟩ with ⟨seen, hseen, hfits, h⟩ | ⟨hfull, h⟩
    · left
      refine ⟨seen, hseen, hfits, ?_⟩
      simp only [h, ↓reduceIte]
      by_cases hdepth : openDepth fragment < p.producer.starts.size
      · exact .inl ⟨hdepth, if_pos hdepth⟩
      · exact .inr ⟨Nat.le_of_not_lt hdepth, if_neg hdepth⟩
    · right
      refine ⟨hfull, ?_⟩
      simp [h]

theorem publishMarker_cases :
    (∃ seen, (seen = p.producer.seenTail ∨ seen = p.ring.tail) ∧
        p.FitsBehind seen (.ofWords (distance p.schema.markerWords)) ∧
        p.publishMarker = (true, (p.storeTrailer.glance seen).rebaseWrites.stampMarker.publish)) ∨
      (¬ p.FitsBehind p.ring.tail (.ofWords (distance p.schema.markerWords)) ∧
        p.publishMarker = (false, p.storeTrailer.glance p.ring.tail)) := by
  have hsame : p.storeTrailer.schema = p.schema ∧ p.storeTrailer.ring.tail = p.ring.tail ∧
      p.storeTrailer.producer.seenTail = p.producer.seenTail ∧
      ∀ tail request, p.storeTrailer.FitsBehind tail request ↔ p.FitsBehind tail request := by
    unfold storeTrailer
    split
    · exact ⟨rfl, rfl, rfl, fun _ _ => Iff.rfl⟩
    · exact ⟨rfl, rfl, rfl, fun _ _ => by simp [FitsBehind]⟩
  obtain ⟨hschema, htail, hseenTail, hfitsBehind⟩ := hsame
  unfold publishMarker
  rcases p.storeTrailer.roomFor_cases (.ofWords (distance p.storeTrailer.schema.markerWords)) with
    ⟨seen, hseen, hfits, h⟩ | ⟨hfull, h⟩
  · left
    rw [htail, hseenTail] at hseen
    rw [hfitsBehind, hschema] at hfits
    exact ⟨seen, hseen, hfits, by simp only [h, ↓reduceIte]⟩
  · right
    rw [hfitsBehind, htail, hschema] at hfull
    rw [htail] at h
    exact ⟨hfull, by simp [h]⟩

theorem claim_cases (words : Nat) :
    (∃ seen, (seen = p.producer.seenTail ∨ seen = p.ring.tail) ∧
        p.FitsBehind seen (.ofWords words) ∧
        p.claim words = (.ok (), (p.glance seen).storeTrailer.advanceHead (.ofWords words))) ∨
      (¬ p.FitsBehind p.ring.tail (.ofWords words) ∧ ∃ cause,
        p.claim words = (.error (.error cause), p.glance p.ring.tail)) := by
  unfold claim
  rcases p.roomFor_cases (.ofWords words) with ⟨seen, hseen, hfits, h⟩ | ⟨hfull, h⟩
  · left
    refine ⟨seen, hseen, hfits, ?_⟩
    simp only [h, ↓reduceIte]
    rfl
  · right
    refine ⟨hfull, ?_⟩
    simp only [h]
    exact ⟨_, rfl⟩

theorem storeWords_cases (loc : Locator) (words : List Int32) :
    (∃ start, p.producer.starts[loc.depth]? = some start ∧ p.storeWords loc words =
        (.ok (), { p with ring := p.ring.setWords (start + loc.offset) words })) ∨
      (p.producer.starts.size ≤ loc.depth ∧ p.storeWords loc words = (.error .outOfRange, p)) := by
  unfold storeWords Producer.position?
  cases hstart : p.producer.starts[loc.depth]? with
  | some start => exact .inl ⟨start, rfl, rfl⟩
  | none => exact .inr ⟨Array.getElem?_eq_none_iff.1 hstart, rfl⟩

theorem storeBytes_cases (loc : Locator) (data : List UInt8) :
    (∃ seen, (seen = p.producer.seenTail ∨ seen = p.ring.tail) ∧
        p.FitsBehind seen (.ofBytes data.length) ∧
        ((∃ cause, p.storeBytes loc data = (.error (.error cause), p.glance seen)) ∨
          (p.producer.starts.size ≤ loc.depth ∧
            p.storeBytes loc data = (.error .outOfRange, p.glance seen)) ∨
          ∃ start, p.producer.starts[loc.depth]? = some start ∧
            p.producer.head.bytes - p.producer.byteBase + data.length ≤ maxSpan ∧
            p.storeBytes loc data = (.ok (),
              { (p.glance seen).appendBytes data with
                ring := ((p.glance seen).appendBytes data).ring.setWords (start + loc.offset)
                  [Int32.ofNat (p.producer.head.bytes - p.producer.byteBase),
                    Int32.ofNat data.length] }))) ∨
      (¬ p.FitsBehind p.ring.tail (.ofBytes data.length) ∧ ∃ cause,
        p.storeBytes loc data = (.error (.error cause), p.glance p.ring.tail)) := by
  unfold storeBytes
  rcases p.roomFor_cases (.ofBytes data.length) with ⟨seen, hseen, hfits, h⟩ | ⟨hfull, h⟩
  · left
    refine ⟨seen, hseen, hfits, ?_⟩
    simp only [h, Bool.not_true, Bool.false_eq_true, ↓reduceIte]
    by_cases hspan : maxSpan < p.producer.head.bytes - p.producer.byteBase + data.length
    · exact .inl ⟨_, if_pos hspan⟩
    · rw [if_neg (by exact hspan)]
      by_cases hdepth : loc.depth < p.producer.starts.size
      · refine .inr (.inr ⟨p.producer.starts[loc.depth], Array.getElem?_eq_getElem hdepth,
          Nat.le_of_not_lt hspan, ?_⟩)
        rw [if_pos (by exact hdepth)]
        unfold storeWords
        rw [show Producer.position? _ loc = some (p.producer.starts[loc.depth] + loc.offset) by
          simp [Producer.position?, glance, hdepth]]
        rfl
      · exact .inr (.inl ⟨Nat.le_of_not_lt hdepth, if_neg hdepth⟩)
  · right
    refine ⟨hfull, ?_⟩
    simp only [h]
    exact ⟨_, rfl⟩

theorem accept_cases (c : Consumer) (transfer : Ring → Mark → Ring) :
    (c.hasFragment = false ∧ p.accept c transfer = (.error (.error .nothingPrepared), p)) ∨
      (c.hasFragment = true ∧
        ((∃ seen, (seen = p.producer.seenTail ∨ seen = p.ring.tail) ∧ p.FitsBehind seen c.extent ∧
            p.accept c transfer = (.ok true, (p.glance seen).append c transfer)) ∨
          (¬ p.FitsBehind p.ring.tail c.extent ∧
            p.accept c transfer = (.ok false, p.glance p.ring.tail)))) := by
  unfold accept
  cases hfragment : c.hasFragment with
  | false => exact .inl ⟨rfl, rfl⟩
  | true =>
    refine .inr ⟨rfl, ?_⟩
    rcases p.roomFor_cases c.extent with ⟨seen, hseen, hfits, h⟩ | ⟨hfull, h⟩
    · exact .inl ⟨seen, hseen, hfits, by simp only [h, ↓reduceIte]⟩
    · exact .inr ⟨hfull, by simp [h]⟩

end Writing

section Reading

variable (p : Pipe)

theorem isVisible_cases (target : Nat) :
    ∃ seen, (seen = p.consumer.seenHead ∨ seen = p.ring.head.words) ∧
      ((target ≤ seen ∧ p.isVisible target = (true, p.look seen)) ∨
        (seen = p.ring.head.words ∧ seen < target ∧
          p.isVisible target = (false, p.look seen))) := by
  unfold isVisible
  by_cases hseen : target ≤ p.consumer.seenHead
  · exact ⟨p.consumer.seenHead, .inl rfl, .inl ⟨hseen, if_pos hseen⟩⟩
  · rw [if_neg hseen]
    refine ⟨p.ring.head.words, .inr rfl, ?_⟩
    by_cases hhead : target ≤ p.ring.head.words
    · exact .inl ⟨hhead, by simp [look, hhead]⟩
    · exact .inr ⟨rfl, Nat.lt_of_not_le hhead, by simp [look, hhead]⟩

theorem await_cases (start size : Nat) :
    ∃ seen, (seen = p.consumer.seenHead ∨ seen = p.ring.head.words) ∧
      ((start + size ≤ seen ∧ p.await start size = (.ok true, p.look seen)) ∨
        (seen = p.ring.head.words ∧ seen < start + size ∧ seen ≤ start ∧
          p.await start size = (.ok false, p.look seen)) ∨
        (seen = p.ring.head.words ∧ seen < start + size ∧ start < seen ∧
          p.await start size = (.error (.ofSplit start size seen), p.look seen))) := by
  unfold await
  obtain ⟨seen, hseen, ⟨hle, h⟩ | ⟨hhead, hlt, h⟩⟩ := p.isVisible_cases (start + size)
  · exact ⟨seen, hseen, .inl ⟨hle, by simp only [h, ↓reduceIte]⟩⟩
  · refine ⟨seen, hseen, .inr ?_⟩
    by_cases hstart : start < seen
    · exact .inr ⟨hhead, hlt, hstart, by simp [h, look, hstart]⟩
    · exact .inl ⟨hhead, hlt, Nat.le_of_not_lt hstart, by simp [h, look, hstart]⟩

/-- How an item comes to be prepared: it is published, it passes its checks, and the consumer moves
onto it. -/
structure Prepares (p : Pipe) (start : Nat) (item : ReadItem) (bytes : Nat) (q : Pipe) : Prop where
  visible : start + item.words p.schema ≤ max p.consumer.seenHead p.ring.head.words
  inspect : p.inspect start item = .ok bytes
  commit : ∃ seen, (seen = p.consumer.seenHead ∨ seen = p.ring.head.words) ∧
    (p.look seen).commit start item bytes = some q

def Stuck (p : Pipe) (start : Nat) (item : ReadItem) : Prop :=
  p.inspect start item = .error .outOfRange ∨
    ∃ seen bytes, p.inspect start item = .ok bytes ∧
      (p.look seen).commit start item bytes = none

def Announces (p : Pipe) (item : ReadItem) : Prop :=
  ∃ id, p.ring.classifyId p.schema (p.ring.word (p.consumer.next + p.schema.idDistance))
      (p.consumer.next + p.schema.idDistance) = .ok id ∧ p.itemOf? id = some item

def Continues (p : Pipe) (item : ReadItem) : Prop :=
  p.isMessageDue = false ∧ ∃ fragment,
    p.schema.fragment? (positionValue p.consumer.nextCursor) = some fragment ∧
      item = .continuation fragment

/-- The consumer stays where it is, having seen at most the published head. -/
def Unmoved (p q : Pipe) : Prop :=
  ∃ seen, (seen = p.consumer.seenHead ∨ seen = p.ring.head.words) ∧ q = p.look seen

theorem Unmoved.trans {p q r : Pipe} (hq : p.Unmoved q) (hr : q.Unmoved r) : p.Unmoved r := by
  obtain ⟨seen, hseen, rfl⟩ := hq
  obtain ⟨seen', hseen', rfl⟩ := hr
  refine ⟨seen', ?_, rfl⟩
  rcases hseen' with rfl | rfl
  · exact hseen
  · exact .inr rfl

theorem Prepares.of_unmoved {p q r : Pipe} {start bytes : Nat} {item : ReadItem} (hq : p.Unmoved q)
    (h : q.Prepares start item bytes r) : p.Prepares start item bytes r := by
  obtain ⟨seen, hseen, rfl⟩ := hq
  obtain ⟨hvisible, hinspect, seen', hseen', hcommit⟩ := h
  refine ⟨?_, hinspect, seen', ?_, hcommit⟩
  · apply Nat.le_trans hvisible
    simp only [look]
    rcases hseen with rfl | rfl <;> omega
  · rcases hseen' with rfl | rfl
    · exact hseen
    · exact .inr rfl

theorem inspect_error {start : Nat} {item : ReadItem} {fault : Fault}
    (h : p.inspect start item = .error fault) :
    (∃ cause, fault = .error cause ∧ cause.isCorruption = true) ∨ fault = .outOfRange := by
  unfold inspect at h
  cases htrailer : p.ring.trailerAt (start + item.words p.schema - 1) with
  | error cause =>
    rw [htrailer] at h
    cases h
    exact .inl ⟨cause, rfl, Ring.isCorruption_of_trailerAt htrailer⟩
  | ok bytes =>
    rw [htrailer] at h
    cases hfragment : item.fragment? with
    | none =>
      simp only [hfragment] at h
      cases h
    | some fragment =>
      simp only [hfragment] at h
      cases hlast : p.schema.lastOf? fragment with
      | none =>
        simp only [hlast] at h
        cases h
        exact .inr rfl
      | some final =>
        simp only [hlast] at h
        split at h
        · cases hlength : p.ring.lengthAt (start + final.2.wordDistance) with
          | error cause =>
            simp only [hlength] at h
            cases h
            exact .inl ⟨cause, rfl, Ring.isCorruption_of_lengthAt hlength⟩
          | ok length =>
            simp only [hlength] at h
            cases h
        · cases h

theorem prepare_cases (start : Nat) (item : ReadItem) :
    (∃ bytes q, p.Prepares start item bytes q ∧ p.prepare start item = (.ok true, q)) ∨
      ∃ q, p.Unmoved q ∧
        ((p.ring.head.words ≤ start ∧ p.prepare start item = (.ok false, q)) ∨
          (∃ cause, cause.isCorruption = true ∧
            p.prepare start item = (.error (.error cause), q)) ∨
          (p.Stuck start item ∧ p.prepare start item = (.error .outOfRange, q))) := by
  unfold prepare
  obtain ⟨seen, hseen, ⟨hle, h⟩ | ⟨hhead, hlt, hstart, h⟩ | ⟨hhead, hlt, hstart, h⟩⟩ :=
    p.await_cases start (item.words p.schema)
  · have hinspect : (p.look seen).inspect start item = p.inspect start item := rfl
    simp only [h, hinspect]
    cases hchecks : p.inspect start item with
    | error fault =>
      refine .inr ⟨_, ⟨seen, hseen, rfl⟩, .inr ?_⟩
      rcases p.inspect_error hchecks with ⟨cause, rfl, hcause⟩ | rfl
      · exact .inl ⟨cause, hcause, rfl⟩
      · exact .inr ⟨.inl hchecks, rfl⟩
    | ok bytes =>
      simp only
      cases hcommit : (p.look seen).commit start item bytes with
      | some q =>
        refine .inl ⟨bytes, q, ⟨?_, hchecks, seen, hseen, hcommit⟩, rfl⟩
        rcases hseen with rfl | rfl <;> omega
      | none =>
        exact .inr ⟨_, ⟨seen, hseen, rfl⟩, .inr (.inr ⟨.inr ⟨seen, bytes, hchecks, hcommit⟩, rfl⟩)⟩
  · simp only [h]
    exact .inr ⟨_, ⟨seen, hseen, rfl⟩, .inl ⟨hhead ▸ hstart, rfl⟩⟩
  · simp only [h]
    exact .inr ⟨_, ⟨seen, hseen, rfl⟩, .inr (.inl ⟨_, rfl, rfl⟩)⟩

/-- A template id that passes its check names an item, or its fragment is missing. -/
theorem readMessage_cases :
    (∃ item bytes q, p.Announces item ∧ p.Prepares p.consumer.next item bytes q ∧
        p.readMessage = (.ok true, q)) ∨
      ∃ q, p.Unmoved q ∧
        ((p.ring.head.words ≤ p.consumer.next ∧ p.readMessage = (.ok false, q)) ∨
          (∃ cause, cause.isCorruption = true ∧ p.readMessage = (.error (.error cause), q)) ∨
          (((∃ item, p.Announces item ∧ p.Stuck p.consumer.next item) ∨
              ∃ id : Nat, p.schema.isMessageStart id = true ∧ p.schema.fragment? id = none) ∧
            p.readMessage = (.error .outOfRange, q))) := by
  unfold readMessage
  obtain ⟨seen, hseen, ⟨hle, h⟩ | ⟨hhead, hlt, hstart, h⟩ | ⟨hhead, hlt, hstart, h⟩⟩ :=
    p.await_cases p.consumer.next (p.schema.idDistance + 1)
  · have hunmoved : p.Unmoved (p.look seen) := ⟨seen, hseen, rfl⟩
    simp only [h]
    rw [ring_look, schema_look]
    cases hid : p.ring.classifyId p.schema (p.ring.word (p.consumer.next + p.schema.idDistance))
        (p.consumer.next + p.schema.idDistance) with
    | error cause =>
      exact .inr ⟨_, hunmoved, .inr (.inl ⟨cause, Ring.isCorruption_of_classifyId hid, rfl⟩)⟩
    | ok id =>
      simp only [itemOf?_look]
      cases hitem : p.itemOf? id with
      | none =>
        refine .inr ⟨_, hunmoved, .inr (.inr ⟨.inr ?_, rfl⟩)⟩
        unfold Ring.classifyId at hid
        split at hid
        · cases hid
          cases hitem
        · rename_i hinside
          split at hid <;> cases hid
          rename_i hstarts
          refine ⟨_, ?_, Option.map_eq_none_iff.1 hitem⟩
          rw [Int.toNat_of_nonneg (by simp at hinside; omega)]
          exact hstarts
      | some item =>
        simp only
        rcases (p.look seen).prepare_cases p.consumer.next item with
          ⟨bytes, q, hprepares, h⟩ | ⟨q, hq, ⟨hhead, h⟩ | ⟨cause, hcause, h⟩ | ⟨hstuck, h⟩⟩
        · exact .inl ⟨item, bytes, q, ⟨id, hid, hitem⟩, hprepares.of_unmoved hunmoved, h⟩
        · exact .inr ⟨q, hunmoved.trans hq, .inl ⟨hhead, h⟩⟩
        · exact .inr ⟨q, hunmoved.trans hq, .inr (.inl ⟨cause, hcause, h⟩)⟩
        · exact .inr ⟨q, hunmoved.trans hq,
            .inr (.inr ⟨.inl ⟨item, ⟨id, hid, hitem⟩, hstuck⟩, h⟩)⟩
  · simp only [h]
    exact .inr ⟨_, ⟨seen, hseen, rfl⟩, .inl ⟨hhead ▸ hstart, rfl⟩⟩
  · simp only [h]
    exact .inr ⟨_, ⟨seen, hseen, rfl⟩, .inr (.inl ⟨_, rfl, rfl⟩)⟩

theorem readContinuation_cases :
    (∃ item bytes q, p.Continues item ∧ p.Prepares p.consumer.next item bytes q ∧
        p.readContinuation = (.ok true, q)) ∨
      ((∀ item, ¬ p.Continues item) ∧ p.readContinuation =
        (.error (.error (.noFragmentAt (positionValue p.consumer.nextCursor))), p)) ∨
      ∃ q, p.Unmoved q ∧
        ((p.ring.head.words ≤ p.consumer.next ∧ p.readContinuation = (.ok false, q)) ∨
          (∃ cause, cause.isCorruption = true ∧
            p.readContinuation = (.error (.error cause), q)) ∨
          ((∃ item, p.Continues item ∧ p.Stuck p.consumer.next item) ∧
            p.readContinuation = (.error .outOfRange, q))) := by
  unfold readContinuation
  simp only
  by_cases hdue : p.isMessageDue = true
  · refine .inr (.inl ⟨?_, by rw [if_pos hdue]⟩)
    rintro item ⟨hcontinues, -⟩
    rw [hdue] at hcontinues
    cases hcontinues
  · rw [if_neg hdue]
    cases hfragment : p.schema.fragment? (positionValue p.consumer.nextCursor) with
    | none =>
      refine .inr (.inl ⟨?_, rfl⟩)
      rintro item ⟨-, fragment, hsome, -⟩
      rw [hfragment] at hsome
      cases hsome
    | some fragment =>
      have hcontinues : p.Continues (.continuation fragment) :=
        ⟨by simpa using hdue, fragment, hfragment, rfl⟩
      simp only
      rcases p.prepare_cases p.consumer.next (.continuation fragment) with
        ⟨bytes, q, hprepares, h⟩ | ⟨q, hq, ⟨hhead, h⟩ | ⟨cause, hcause, h⟩ | ⟨hstuck, h⟩⟩
      · exact .inl ⟨_, bytes, q, hcontinues, hprepares, h⟩
      · exact .inr (.inr ⟨q, hq, .inl ⟨hhead, h⟩⟩)
      · exact .inr (.inr ⟨q, hq, .inr (.inl ⟨cause, hcause, h⟩)⟩)
      · exact .inr (.inr ⟨q, hq, .inr (.inr ⟨⟨_, hcontinues, hstuck⟩, h⟩)⟩)

theorem skip_cases (words : Nat) :
    ∃ q, p.Unmoved q ∧
      ((p.consumer.next + words ≤ q.consumer.seenHead ∧ p.skip words =
          (.ok (), { q with
            consumer := { q.consumer with
              tail := ⟨p.consumer.next + words, p.consumer.tail.bytes + p.consumer.fragmentBytes⟩
              next := p.consumer.next + words
              fragmentBytes := 0
              hasFragment := false } })) ∨
        ∃ cause, p.skip words = (.error (.error cause), q)) := by
  unfold skip
  obtain ⟨seen, hseen, ⟨hle, h⟩ | ⟨hhead, hlt, h⟩⟩ := p.isVisible_cases (p.consumer.next + words)
  · refine ⟨_, ⟨seen, hseen, rfl⟩, .inl ⟨hle, ?_⟩⟩
    simp only [h, ↓reduceIte]
    rfl
  · refine ⟨_, ⟨seen, hseen, rfl⟩, .inr ?_⟩
    simp only [h]
    exact ⟨_, rfl⟩

end Reading

end Pipe

end FragmentPipe
