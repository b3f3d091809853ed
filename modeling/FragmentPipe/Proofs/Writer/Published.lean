import FragmentPipe.Proofs.Writer.Opened

set_option autoImplicit false

namespace FragmentPipe

/-- Actions that write no further than they have claimed: they open, publish, claim or pass on, or
write to a field of the fragment that is being filled a value of the field's shape. -/
def Action.Careful (schema : Schema) (opened : Option Fragment) : Action → Prop
  | .run (.openAt _ _) | .run (.claim _) | .run .publish | .run .publishMarker | .relayFrom _
  | .relayWithin => True
  | .run (.write loc value) => ∃ f, opened = some f ∧ schema.FieldAt f loc value.shape
  | _ => False

def Action.isRead : Action → Bool
  | .run .read | .run .readMessage | .run .readContinuation => true
  | _ => false

theorem Action.Careful.isProducing {schema : Schema} {opened : Option Fragment} {action : Action}
    (h : action.Careful schema opened) : action.isProducing = true := by
  cases action with
  | relayFrom source | relayWithin => rfl
  | run command => cases command <;> first | rfl | cases h

namespace Pipe

section Writes

variable {p : Pipe} {f : Fragment} {loc : Locator}

theorem keepsPublished_storeWords (hs : p.schema.Measured) (h : p.Ordered) (hfills : p.Fills f)
    {shape : Shape} (hfield : p.schema.FieldAt f loc shape) {words : List Int32}
    (hlength : words.length = shape.words) : p.KeepsPublished (p.storeWords loc words).2 := by
  rcases p.storeWords_cases loc words with ⟨start, hstart, hstore⟩ | ⟨-, hstore⟩
  · rw [hstore]
    obtain ⟨hdepth, hoffset⟩ := hs.fieldAt hfills.fragment hfield
    obtain ⟨begin, hbegin, hlow, hhigh⟩ := hfills.start
    rw [hdepth, hbegin] at hstart
    cases hstart
    have hroom := h.room.1
    simp only [Mark.words_add] at hroom
    exact p.ring.keeps_setWords (by omega) (by omega)
  · rw [hstore]
    exact keepsPublished_of_eq rfl

theorem keepsPublished_storeBytes (hs : p.schema.Measured) (h : p.Ordered) (hfills : p.Fills f)
    (hfield : p.schema.FieldAt f loc .bytes) (data : List UInt8) :
    p.KeepsPublished (p.storeBytes loc data).2 := by
  rcases p.storeBytes_cases loc data with
    ⟨seen, hseen, hfits, ⟨cause, hstore⟩ | ⟨-, hstore⟩ | ⟨start, hstart, -, hstore⟩⟩ |
    ⟨-, cause, hstore⟩
  · rw [hstore]
    exact keepsPublished_of_eq rfl
  · rw [hstore]
    exact keepsPublished_of_eq rfl
  · rw [hstore]
    obtain ⟨hdepth, hoffset⟩ := hs.fieldAt hfills.fragment hfield
    obtain ⟨begin, hbegin, hlow, hhigh⟩ := hfills.start
    rw [hdepth, hbegin] at hstart
    cases hstart
    have hroom := h.room.1
    have hbytes := (h.fits hseen hfits).2
    simp only [Mark.words_add, Mark.bytes_add, Mark.ofBytes, Shape.words] at hroom hbytes hoffset
    refine Ring.Keeps.trans (p.ring.keeps_setBytes h.published.2 hbytes)
      (Ring.keeps_setWords _ ?_ ?_)
    · omega
    · show _ + 2 ≤ p.ring.tail.words + p.ring.capacity.words
      omega
  · rw [hstore]
    exact keepsPublished_of_eq rfl

theorem keepsPublished_write (hs : p.schema.Measured) (h : p.Ordered) (hfills : p.Fills f)
    {value : Value} (hfield : p.schema.FieldAt f loc value.shape) :
    p.KeepsPublished (p.write loc value).2 := by
  cases value with
  | word value => exact keepsPublished_storeWords hs h hfills hfield rfl
  | long value => exact keepsPublished_storeWords hs h hfills hfield rfl
  | decimal exponent mantissa => exact keepsPublished_storeWords hs h hfills hfield rfl
  | bytes data => exact keepsPublished_storeBytes hs h hfills hfield data

end Writes

theorem keepsPublished_act {p : Pipe} (hs : p.schema.Measured) (h : p.Ordered)
    {opened : Option Fragment} (hfills : ∀ f, opened = some f → p.Fills f) {action : Action}
    (hcareful : action.Careful p.schema opened) : p.KeepsPublished (p.act action).2 := by
  cases action with
  | relayFrom source =>
    exact keepsPublished_accept h _ _ fun r low high head hhigh hroom =>
      r.keeps_copyPrepared source.ring source.consumer hhigh hroom
  | relayWithin =>
    exact keepsPublished_accept h _ _ fun r low high head hhigh hroom =>
      r.keeps_repeatPrepared p.consumer hhigh hroom
  | run command =>
    cases command with
    | openAt cursor bytes => exact keepsPublished_openAt hs h cursor bytes
    | write loc value =>
      obtain ⟨f, hf, hfield⟩ := hcareful
      exact keepsPublished_write hs h (hfills f hf) hfield
    | claim words => exact keepsPublished_claim h words
    | publish => exact keepsPublished_publish h
    | publishMarker => exact keepsPublished_publishMarker hs.toAccepted h
    | storeAhead | rebaseWrites | roomFor | isVisible | read | readMessage | readContinuation
    | releaseNow | rebaseReads | skip | reset => cases hcareful

/-- Actions that leave what is prepared alone: careful ones, attempts to read that come to nothing,
and releases. -/
def IsQuiet (p : Pipe) (opened : Option Fragment) (action : Action) : Prop :=
  action.Careful p.schema opened ∨ (action.isRead = true ∧ (p.act action).1 ≠ .ok (.flag true)) ∨
    action = .run .releaseNow

inductive Quietly (p : Pipe) (opened : Option Fragment) : Pipe → Option Fragment → Prop where
  | refl : Quietly p opened p opened
  | act {q : Pipe} {filling : Option Fragment} (h : Quietly p opened q filling) (action : Action)
      (hquiet : q.IsQuiet filling action) :
      Quietly p opened (q.act action).2 (q.openedAfter filling action)

structure Stays (p q : Pipe) : Prop where
  schema : q.schema = p.schema
  cursor : q.consumer.cursor = p.consumer.cursor
  hasFragment : q.consumer.hasFragment = p.consumer.hasFragment
  tail : q.consumer.tail = p.consumer.tail
  next : q.consumer.next = p.consumer.next
  starts : q.consumer.starts = p.consumer.starts
  byteBase : q.consumer.byteBase = p.consumer.byteBase
  words : ∀ i, p.consumer.tail.words ≤ i → i < p.consumer.next → q.ring.word i = p.ring.word i

theorem Stays.refl (p : Pipe) : p.Stays p := ⟨rfl, rfl, rfl, rfl, rfl, rfl, rfl, fun _ _ _ => rfl⟩

theorem Stays.trans {p q r : Pipe} (hpq : p.Stays q) (hqr : q.Stays r) : p.Stays r := by
  refine ⟨hqr.schema.trans hpq.schema, hqr.cursor.trans hpq.cursor,
    hqr.hasFragment.trans hpq.hasFragment, hqr.tail.trans hpq.tail, hqr.next.trans hpq.next,
    hqr.starts.trans hpq.starts, hqr.byteBase.trans hpq.byteBase, fun i hlow hhigh => ?_⟩
  rw [← hpq.words i hlow hhigh]
  exact hqr.words i (hpq.tail ▸ hlow) (hpq.next ▸ hhigh)

theorem Unmoved.stays {p q : Pipe} (h : p.Unmoved q) : p.Stays q := by
  obtain ⟨seen, -, rfl⟩ := h
  exact ⟨rfl, rfl, rfl, rfl, rfl, rfl, rfl, fun _ _ _ => rfl⟩

theorem Attempt.stays {p : Pipe} {expected : ReadItem → Prop} {result : Except Fault Bool × Pipe}
    (h : p.Attempt expected result) (hrefused : result.1 ≠ .ok true) : p.Stays result.2 := by
  cases h with
  | moved => exact absurd rfl hrefused
  | nothing hunmoved _ => exact hunmoved.stays
  | corrupt hunmoved _ => exact hunmoved.stays

/-- A quiet action leaves the prepared fragment as it is. -/
theorem stays_act {p : Pipe} (hs : p.schema.Measured) (hfollows : p.consumer.Follows p.schema)
    (h : p.Ordered) {opened : Option Fragment} (hfills : ∀ f, opened = some f → p.Fills f)
    {action : Action} (hquiet : p.IsQuiet opened action) : p.Stays (p.act action).2 := by
  rcases hquiet with hcareful | ⟨hread, hrefused⟩ | rfl
  · obtain ⟨hconsumer, hschema, -⟩ := p.keepsConsumer_of_isProducing hcareful.isProducing
    have hkeeps := keepsPublished_act hs h hfills hcareful
    refine ⟨hschema, by rw [hconsumer], by rw [hconsumer], by rw [hconsumer], by rw [hconsumer],
      by rw [hconsumer], by rw [hconsumer], fun i hlow hhigh => ?_⟩
    exact hkeeps.words i (Nat.le_trans h.released.1 hlow) (Nat.lt_of_lt_of_le hhigh h.unread)
  · have hreply : ∀ {result : Except Fault Bool × Pipe},
        (replying Reply.flag result).1 ≠ .ok (.flag true) → result.1 ≠ .ok true := by
      intro result hne hdone
      exact hne (by rw [replying, hdone]; rfl)
    cases action with
    | relayFrom source | relayWithin => cases hread
    | run command =>
      cases command with
      | read => exact (attempt_read hs.laidOut hfollows).stays (hreply hrefused)
      | readMessage => exact (attempt_readMessage hs.laidOut hfollows).stays (hreply hrefused)
      | readContinuation =>
        show p.Stays p.readContinuation.2
        by_cases hdue : p.isMessageDue = true
        · rw [readContinuation_of_due hdue]
          exact .refl p
        · exact (attempt_readContinuation hs.laidOut hfollows (by simpa using hdue)).stays
            (hreply hrefused)
      | openAt | write | storeAhead | claim | publish | publishMarker | rebaseWrites | roomFor
      | isVisible | releaseNow | rebaseReads | skip | reset => cases hread
  · show p.Stays p.releaseNow
    unfold releaseNow release
    split
    · exact ⟨rfl, rfl, rfl, rfl, rfl, rfl, rfl, fun _ _ _ => rfl⟩
    · exact .refl p

/-- A prepared fragment begins at the consumer's tail and ends where the next one begins. -/
def Presents (p : Pipe) : Prop :=
  p.consumer.hasFragment = true → ∀ f, p.consumer.cursor = some f.start →
    p.schema.fragment? f.start = some f →
      p.consumer.starts[f.depth]? = some p.consumer.tail.words ∧
        p.consumer.next = p.consumer.tail.words + f.words

theorem Presents.of_eq {p q : Pipe} (h : p.Presents) (hschema : q.schema = p.schema)
    (hfragment : q.consumer.hasFragment = p.consumer.hasFragment)
    (hcursor : q.consumer.cursor = p.consumer.cursor) (htail : q.consumer.tail = p.consumer.tail)
    (hnext : q.consumer.next = p.consumer.next) (hstarts : q.consumer.starts = p.consumer.starts) :
    q.Presents := by
  unfold Presents
  rw [hschema, hfragment, hcursor, htail, hnext, hstarts]
  exact h

theorem Attempt.presents {p : Pipe} (hs : p.schema.LaidOut) (h : p.Presents)
    {expected : ReadItem → Prop}
    {result : Except Fault Bool × Pipe} (hattempt : p.Attempt expected result)
    (hexpected : ∀ item, expected item → item.Sits p.schema p.consumer.sequences.frames) :
    result.2.Presents := by
  cases hattempt with
  | nothing hunmoved _ | corrupt hunmoved _ =>
    obtain ⟨seen, -, rfl⟩ := hunmoved
    exact h
  | @moved item bytes q hitem _ hmoved _ =>
    intro _ f hcursor hf
    rw [hmoved.schema] at hf
    rw [hmoved.cursor] at hcursor
    obtain ⟨g, hg, hstart⟩ := Option.map_eq_some_iff.1 hcursor
    have hsame := (hexpected item hitem).fragment g hg
    rw [hstart, hf] at hsame
    cases hsame
    have hdepth : item.depth = f.depth := by
      cases item with
      | marker => cases hg
      | continuation g =>
        cases hg
        rfl
      | message g =>
        cases hg
        have hmessage := (hexpected _ hitem).message f rfl
        rw [Schema.depth_of_fragment? hs hf, Schema.bodies_of_isMessageStart hs hmessage]
        rfl
    constructor
    · rw [hmoved.starts, hmoved.tail, ← hdepth]
      exact Array.getElem?_setIfInBounds_self_of_lt hmoved.depth_lt
    · rw [hmoved.next, hmoved.tail, ReadItem.words_of_fragment? hg]

theorem presents_act {p : Pipe} (hs : p.schema.LaidOut) (hfollows : p.consumer.Follows p.schema)
    (h : p.Presents) (action : Action) : (p.act action).2.Presents := by
  by_cases hproducing : action.isProducing = true
  · obtain ⟨hconsumer, hschema, -⟩ := p.keepsConsumer_of_isProducing hproducing
    exact h.of_eq hschema (by rw [hconsumer]) (by rw [hconsumer]) (by rw [hconsumer])
      (by rw [hconsumer]) (by rw [hconsumer])
  · have hannounces : ∀ item, p.Announces item →
        item.Sits p.schema p.consumer.sequences.frames :=
      fun item hitem => ReadItem.sits_of_announces hs hitem _
    have hcontinues : ∀ item, p.Continues item →
        item.Sits p.schema p.consumer.sequences.frames :=
      fun item hitem => ReadItem.sits_of_continues hfollows hitem
    cases action with
    | relayFrom source | relayWithin => exact absurd rfl hproducing
    | run command =>
      cases command with
      | openAt | write | storeAhead | claim | publish | publishMarker | rebaseWrites | roomFor =>
        exact absurd rfl hproducing
      | isVisible target =>
        show (p.isVisible target).2.Presents
        obtain ⟨seen, -, ⟨-, hvisible⟩ | ⟨-, -, hvisible⟩⟩ := p.isVisible_cases target <;>
          rw [hvisible] <;> exact h
      | read =>
        exact (attempt_read hs hfollows).presents hs h fun item hitem =>
          hitem.either.elim (hannounces item) (hcontinues item)
      | readMessage => exact (attempt_readMessage hs hfollows).presents hs h hannounces
      | readContinuation =>
        show p.readContinuation.2.Presents
        by_cases hdue : p.isMessageDue = true
        · rw [readContinuation_of_due hdue]
          exact h
        · exact (attempt_readContinuation hs hfollows (by simpa using hdue)).presents hs h
            hcontinues
      | releaseNow =>
        show p.releaseNow.Presents
        unfold releaseNow release
        split <;> exact h
      | rebaseReads => exact h
      | skip words =>
        show (p.skip words).2.Presents
        obtain ⟨q, hq, ⟨-, hskip⟩ | ⟨cause, hskip⟩⟩ := p.skip_cases words
        · rw [hskip]
          exact fun hfragment => (nomatch hfragment)
        · rw [hskip]
          obtain ⟨seen, -, rfl⟩ := hq
          exact h
      | reset => exact fun hfragment => (nomatch hfragment)

theorem Reachable.presents {schema : Schema} {config : Config} {p : Pipe}
    (h : Reachable schema config p) (hs : schema.Compiled) : p.Presents := by
  induction h with
  | built h =>
    rw [eq_fresh_of_build h]
    exact fun hfragment => (nomatch hfragment)
  | act h action ih =>
    obtain ⟨rfl, hfollows⟩ := h.follows hs
    exact presents_act hs.laidOut hfollows ih action

theorem Quietly.opened {schema : Schema} {config : Config} {p q : Pipe}
    {opened filling : Option Fragment} (h : Opened schema config p opened)
    (hquiet : Quietly p opened q filling) : Opened schema config q filling := by
  induction hquiet with
  | refl => exact h
  | act _ action _ ih => exact ih.act action

theorem Quietly.stays {schema : Schema} {config : Config} {p q : Pipe}
    {opened filling : Option Fragment} (hs : schema.Accepted) (h : Opened schema config p opened)
    (hquiet : Quietly p opened q filling) : p.Stays q := by
  induction hquiet with
  | refl => exact .refl p
  | act hbefore action hnext ih =>
    have hopened := hbefore.opened h
    obtain ⟨hschema, hfollows⟩ := hopened.reachable.follows hs.compiled
    have hmeasured := hopened.reachable.measured hs
    exact ih.trans (stays_act (hschema ▸ hmeasured) hfollows (hopened.reachable.ordered hs)
      (hopened.fills hs) hnext)

theorem Presents.position?_eq {p : Pipe} (hs : p.schema.Measured) (h : p.Presents)
    (hfragment : p.consumer.hasFragment = true) {f : Fragment}
    (hcursor : p.consumer.cursor = some f.start) (hf : p.schema.fragment? f.start = some f)
    {loc : Locator} {shape : Shape} (hfield : p.schema.FieldAt f loc shape) :
    p.consumer.position? loc = some (p.consumer.tail.words + loc.offset) ∧
      p.consumer.tail.words + loc.offset + shape.words < p.consumer.next := by
  obtain ⟨hdepth, hoffset⟩ := hs.fieldAt hf hfield
  obtain ⟨hstart, hnext⟩ := h hfragment f hcursor hf
  refine ⟨?_, by omega⟩
  rw [Consumer.position?, hdepth, hstart]
  rfl

theorem Stays.readValue {p q : Pipe} (hs : p.schema.Measured) (h : p.Stays q)
    (hpresents : p.Presents) (hfragment : p.consumer.hasFragment = true) {f : Fragment}
    (hcursor : p.consumer.cursor = some f.start) (hf : p.schema.fragment? f.start = some f)
    {loc : Locator} {shape : Shape} (hfield : p.schema.FieldAt f loc shape)
    (hshape : shape ≠ .bytes) :
    ∃ value, p.readValue loc shape = .ok value ∧ q.readValue loc shape = .ok value := by
  obtain ⟨hposition, hlt⟩ := hpresents.position?_eq hs hfragment hcursor hf hfield
  have hsame : q.consumer.position? loc = some (p.consumer.tail.words + loc.offset) := by
    rw [← hposition, Consumer.position?, h.starts]
    rfl
  have hwords : ∀ i, i < shape.words →
      q.ring.word (p.consumer.tail.words + loc.offset + i) =
        p.ring.word (p.consumer.tail.words + loc.offset + i) :=
    fun i hi => h.words _ (by omega) (by omega)
  refine ⟨p.ring.valueAt p.consumer.byteBase (p.consumer.tail.words + loc.offset) shape, ?_, ?_⟩
  · rw [Pipe.readValue, atField, hposition]
  · rw [Pipe.readValue, atField, hsame]
    simp only [Except.ok.injEq, h.byteBase]
    exact Ring.valueAt_congr hwords fun hbytes => absurd hbytes hshape

end Pipe

end FragmentPipe
