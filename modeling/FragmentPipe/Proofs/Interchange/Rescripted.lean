import FragmentPipe.Proofs.Interchange.Halves
import FragmentPipe.Proofs.Reader.Moves
import FragmentPipe.Proofs.Script.Undivided

set_option autoImplicit false

namespace FragmentPipe

def Consumer.rescript (size : Nat) (c : Consumer) : Consumer :=
  { c with nextCursor := c.nextCursor.map fun _ => size }

namespace Pipe

def rescript (t : Schema) (p : Pipe) : Pipe := p.recast (fun _ => t) (Consumer.rescript t.size)

@[simp]
theorem schema_rescript (t : Schema) (p : Pipe) : (p.rescript t).schema = t := rfl

@[simp]
theorem ring_rescript (t : Schema) (p : Pipe) : (p.rescript t).ring = p.ring := rfl

theorem isMessageDue_rescript (t : Schema) (p : Pipe) : (p.rescript t).isMessageDue = true := by
  cases hnext : p.consumer.nextCursor with
  | none => simp [isMessageDue, rescript, recast, Consumer.rescript, hnext]
  | some next => simp [isMessageDue, rescript, recast, Consumer.rescript, hnext]

def rescripting {α : Type} (t : Schema) (result : α × Pipe) : α × Pipe :=
  (result.1, result.2.rescript t)

section Writing

variable {p : Pipe} {s t : Schema}

theorem write_rescript (t : Schema) (p : Pipe) (loc : Locator) (value : Value) :
    (p.rescript t).write loc value = rescripting t (p.write loc value) :=
  p.write_recast _ _ loc value

theorem publish_rescript (t : Schema) (p : Pipe) :
    (p.rescript t).publish = p.publish.rescript t :=
  p.publish_recast _ _

theorem publishMarker_rescript (hoffset : t.templateOffset = p.schema.templateOffset) :
    (p.rescript t).publishMarker = rescripting t p.publishMarker :=
  publishMarker_recast _ _ hoffset

variable {words : Int} (hs : s.Undivided words) (ht : t.Undivided words)
  (hoffset : t.templateOffset = s.templateOffset) (hschema : p.schema = s)

include hs ht hoffset hschema

theorem openAt_rescript (cursor : Int) (bytes : Nat) :
    (p.rescript t).openAt cursor bytes = rescripting t (p.openAt cursor bytes) := by
  subst hschema
  unfold openAt
  rw [show (p.rescript t).schema.fragment? cursor = _ from ht.fragment?_eq cursor,
    hs.fragment?_eq]
  by_cases hcursor : cursor = 0
  · rw [if_pos hcursor, if_pos hcursor]
    simp only [rescript, roomFor_recast, recasting, Schema.whole]
    have hkeeps := p.keepsConsumer_roomFor ⟨distance words, bytes⟩
    generalize p.roomFor _ = result at hkeeps ⊢
    obtain ⟨room, q⟩ := result
    have hq : t.templateOffset = q.schema.templateOffset := by rw [hkeeps.schema, hoffset]
    cases room with
    | false => rfl
    | true =>
      by_cases hdepth : 0 < q.producer.starts.size
      · have hopened : (q.rescript t).openFragment (t.whole words) 0 =
            (q.openFragment (p.schema.whole words) 0).rescript t :=
          openFragment_recast _ _ hq (t.whole words) 0
        simpa [Schema.whole, hdepth, rescripting, rescript] using hopened
      · simp [hdepth, rescripting, rescript]
  · rw [if_neg hcursor, if_neg hcursor]
    rfl

end Writing

section Reading

variable (t : Schema) (p : Pipe)

theorem await_rescript (start size : Nat) :
    (p.rescript t).await start size = rescripting t (p.await start size) :=
  p.await_relocate (fun _ => t) (Option.map fun _ => t.size) id start size

theorem releaseBatch_rescript : (p.rescript t).releaseBatch = p.releaseBatch.rescript t :=
  p.releaseBatch_relocate (fun _ => t) (Option.map fun _ => t.size) id

theorem releaseNow_rescript : (p.rescript t).releaseNow = p.releaseNow.rescript t :=
  p.releaseNow_relocate (fun _ => t) (Option.map fun _ => t.size) id

def leave (p : Pipe) (start : Nat) (item : ReadItem) (bytes : Nat) : Pipe :=
  { p with consumer := p.consumer.begin item start (item.words p.schema) bytes }

theorem onto_eq (start : Nat) (item : ReadItem) (bytes : Nat) :
    p.onto start item bytes =
      { (p.leave start item bytes).releaseBatch with
        consumer := (p.leave start item bytes).releaseBatch.consumer.identify item } := rfl

end Reading

end Pipe

def Schema.itemAt (s : Schema) (words : Int) : TemplateId → ReadItem
  | .endOfStream => .marker
  | .message _ => .message (s.whole words)

/-- What an id means that is written under a script of one fragment. -/
def idOf (word : Int32) : TemplateId := if word = 0 then .message 0 else .endOfStream

theorem Schema.Undivided.classifyId_eq {s : Schema} {words : Int} (hs : s.Undivided words)
    (r : Ring) {word : Int32} (hword : word = -1 ∨ word = 0) (position : Nat) :
    r.classifyId s word position = .ok (idOf word) := by
  unfold Ring.classifyId
  rcases hword with rfl | rfl
  · rfl
  · have hsize := hs.size_pos
    have hstart : s.isMessageStart 0 = true := by simp [hs.isMessageStart_eq]
    have hne : ((0 : Int) == s.size) = false := by
      rw [beq_eq_false_iff_ne]
      omega
    simp [hstart, hne, idOf]

theorem Schema.Undivided.itemOf?_eq {s : Schema} {words : Int} (hs : s.Undivided words) {p : Pipe}
    (hschema : p.schema = s) (word : Int32) :
    p.itemOf? (idOf word) = some (s.itemAt words (idOf word)) := by
  subst hschema
  unfold idOf
  split
  · show (p.schema.fragment? 0).map _ = _
    rw [hs.fragment?_eq, if_pos rfl]
    rfl
  · rfl

section Undivided

variable {s t : Schema} {words : Int} {p : Pipe}

section Beginning

variable (hoffset : t.templateOffset = s.templateOffset) (hschema : p.schema = s)

include hoffset

theorem Schema.words_itemAt (words : Int) (id : TemplateId) :
    (t.itemAt words id).words t = (s.itemAt words id).words s := by
  cases id with
  | endOfStream => exact congrArg (fun offset => distance (offset + 2)) hoffset
  | message id => rfl

include hschema

namespace Pipe

theorem leave_rescript (start : Nat) (id : TemplateId) (bytes : Nat) :
    (p.rescript t).leave start (t.itemAt words id) bytes =
      (p.leave start (s.itemAt words id) bytes).rescript t := by
  subst hschema
  show { p.rescript t with
    consumer := (p.rescript t).consumer.begin (t.itemAt words id) start
      ((t.itemAt words id).words t) bytes } = _
  rw [Schema.words_itemAt hoffset]
  cases id <;> rfl

theorem onto_rescript (start : Nat) (id : TemplateId) (bytes : Nat) :
    (p.rescript t).onto start (t.itemAt words id) bytes =
      (p.onto start (s.itemAt words id) bytes).rescript t := by
  rw [onto_eq, onto_eq, leave_rescript hoffset hschema, releaseBatch_rescript]
  cases id <;> rfl

end Pipe

end Beginning

variable (hs : s.Undivided words) (ht : t.Undivided words)

include hs ht

theorem Consumer.enter_rescript (c : Consumer) (r : Ring) :
    (c.rescript t.size).enter t r (t.whole words) =
      (c.enter s r (s.whole words)).map (Consumer.rescript t.size) := by
  obtain ⟨e, hlast, hlength, hcloses⟩ := hs.lastOf?_whole
  obtain ⟨e', hlast', hlength', hcloses'⟩ := ht.lastOf?_whole
  have hsize : t.size - 1 + 1 = t.size := Nat.sub_add_cancel ht.size_pos
  unfold Consumer.enter
  rw [hlast, hlast']
  simp only [hlength, hlength', hcloses, hcloses', hsize, Bool.false_eq_true, ↓reduceIte]
  rfl

variable (hoffset : t.templateOffset = s.templateOffset) (hschema : p.schema = s)

include hoffset hschema

namespace Pipe

theorem commit_rescript (start : Nat) (id : TemplateId) (bytes : Nat) :
    (p.rescript t).commit start (t.itemAt words id) bytes =
      (p.commit start (s.itemAt words id) bytes).map (rescript t) := by
  have honto : (p.rescript t).onto start (t.itemAt words id) bytes =
      (p.onto start (s.itemAt words id) bytes).rescript t :=
    onto_rescript hoffset hschema start id bytes
  have hslot : ∀ r : Schema, (r.itemAt words id).depth = 0 := by
    intro r
    cases id <;> rfl
  by_cases hdepth : 0 < p.consumer.starts.size
  · rw [p.commit_eq_onto start _ bytes (hslot s ▸ hdepth),
      (p.rescript t).commit_eq_onto start _ bytes (hslot t ▸ hdepth), honto]
    have hbegun := (p.begun_onto start (s.itemAt words id) bytes).schema
    cases id with
    | endOfStream => rfl
    | message id =>
      generalize p.onto start (s.itemAt words (.message id)) bytes = q at hbegun
      have henter := q.consumer.enter_rescript hs ht q.ring
      show ((q.consumer.rescript t.size).enter t q.ring (t.whole words)).map _ =
        ((q.consumer.enter q.schema q.ring (s.whole words)).map _).map _
      rw [henter, hbegun, hschema]
      cases q.consumer.enter s q.ring (s.whole words) <;> rfl
  · unfold commit
    rw [hslot, hslot, if_neg hdepth, if_neg (by exact hdepth)]
    rfl

/-- No sequence length is looked at. -/
theorem inspect_rescript (start : Nat) (id : TemplateId) :
    (p.rescript t).inspect start (t.itemAt words id) =
      p.inspect start (s.itemAt words id) := by
  obtain ⟨e, hlast, hlength, -⟩ := hs.lastOf?_whole
  obtain ⟨e', hlast', hlength', -⟩ := ht.lastOf?_whole
  have hwords : (t.itemAt words id).words (p.rescript t).schema =
      (s.itemAt words id).words s := Schema.words_itemAt hoffset ..
  unfold inspect
  rw [hwords, hschema, show (p.rescript t).ring = p.ring from rfl]
  cases p.ring.trailerAt (start + (s.itemAt words id).words s - 1) with
  | error cause => rfl
  | ok bytes =>
    cases id with
    | endOfStream => rfl
    | message id =>
      have hlast' : (p.rescript t).schema.lastOf? (t.whole words) = _ := hlast'
      simp only [Schema.itemAt, ReadItem.fragment?, hlast, hlast', hlength, hlength',
        Bool.false_eq_true, ↓reduceIte]

theorem prepare_rescript (start : Nat) (id : TemplateId) :
    (p.rescript t).prepare start (t.itemAt words id) =
      rescripting t (p.prepare start (s.itemAt words id)) := by
  have hwords : (t.itemAt words id).words (p.rescript t).schema =
      (s.itemAt words id).words s := Schema.words_itemAt hoffset ..
  unfold prepare
  rw [hwords, await_rescript, ← hschema]
  obtain ⟨seen, -, ⟨-, hawait⟩ | ⟨-, -, -, hawait⟩ | ⟨-, -, -, hawait⟩⟩ :=
    p.await_cases start ((p.schema.itemAt words id).words p.schema) <;> rw [hawait]
  · have hinspect := inspect_rescript hs ht hoffset
      (show (p.look seen).schema = s from hschema) start id
    simp only [rescripting]
    rw [hinspect, hschema]
    cases (p.look seen).inspect start (s.itemAt words id) with
    | error fault => rfl
    | ok bytes =>
      have hcommit := commit_rescript hs ht hoffset
        (show (p.look seen).schema = s from hschema) start id bytes
      simp only [hcommit]
      cases (p.look seen).commit start (s.itemAt words id) bytes <;> rfl
  · rfl
  · rfl

/-- Either way a message is due, and the ids that are met mean the same. -/
theorem read_rescript (hdue : p.isMessageDue = true)
    (hseen : p.consumer.seenHead ≤ p.ring.head.words)
    (hid : p.consumer.next + s.idDistance < p.ring.head.words →
      p.ring.word (p.consumer.next + s.idDistance) = -1 ∨
        p.ring.word (p.consumer.next + s.idDistance) = 0) :
    (p.rescript t).read = rescripting t p.read := by
  subst hschema
  have hnext : (p.rescript t).consumer.next = p.consumer.next := rfl
  have hdistance : (p.rescript t).schema.idDistance = p.schema.idDistance :=
    congrArg distance hoffset
  unfold read
  rw [if_pos hdue, if_pos (p.isMessageDue_rescript t)]
  unfold readMessage
  simp only [hnext, hdistance, await_rescript, rescripting]
  obtain ⟨seen, hhead, ⟨hvisible, hawait⟩ | ⟨-, -, -, hawait⟩ | ⟨-, -, -, hawait⟩⟩ :=
    p.await_cases p.consumer.next (p.schema.idDistance + 1) <;> simp only [hawait]
  -- The id is published, so it is one that means the same under both scripts.
  have hlt : p.consumer.next + p.schema.idDistance < p.ring.head.words := by
    rcases hhead with rfl | rfl <;> omega
  have hclass := hs.classifyId_eq p.ring (hid hlt) (p.consumer.next + p.schema.idDistance)
  have hclass' := ht.classifyId_eq p.ring (hid hlt) (p.consumer.next + p.schema.idDistance)
  have hitem := hs.itemOf?_eq (show (p.look seen).schema = p.schema from rfl)
    (p.ring.word (p.consumer.next + p.schema.idDistance))
  have hitem' := ht.itemOf?_eq (show ((p.look seen).rescript t).schema = t from rfl)
    (p.ring.word (p.consumer.next + p.schema.idDistance))
  have hdistance' : ((p.look seen).rescript t).schema.idDistance = p.schema.idDistance := hdistance
  rw [hdistance']
  simp only [ring_look, schema_look, hclass, hitem, ring_rescript, schema_rescript, hclass', hitem']
  exact prepare_rescript hs ht hoffset (show (p.look seen).schema = p.schema from rfl)
    p.consumer.next _

end Pipe

end Undivided

end FragmentPipe
