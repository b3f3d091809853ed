import FragmentPipe.Proofs.Interchange.Memory
import FragmentPipe.Proofs.Writer.Room

set_option autoImplicit false

namespace FragmentPipe

def Step.isRequest : Step → Bool
  | .command _ (.openAt _ _) | .command _ (.claim _) | .command _ (.write _ _) | .relay _ _ => true
  | _ => false

namespace Pipe

/-- The reply says whether the request fits behind the released tail. -/
def Decides (p : Pipe) (request : Mark) (reply : Except Fault Bool) : Prop :=
  (reply = .ok true ↔ p.FitsBehind p.ring.tail request) ∧
    (reply = .ok false ↔ ¬ p.FitsBehind p.ring.tail request)

def Overruns (channel : ChannelName) (reply : Except Fault Unit) : Prop :=
  ∃ requested limit, reply = .error (.error (.overrun channel requested limit))

section Deciding

variable {p : Pipe}

theorem decides_of {request : Mark} {reply : Except Fault Bool}
    (hroom : p.FitsBehind p.ring.tail request → reply = .ok true)
    (hfull : ¬ p.FitsBehind p.ring.tail request → reply = .ok false) : p.Decides request reply := by
  by_cases hfits : p.FitsBehind p.ring.tail request
  · rw [hroom hfits]
    exact ⟨iff_of_true rfl hfits, iff_of_false nofun (not_not_intro hfits)⟩
  · rw [hfull hfits]
    exact ⟨iff_of_false nofun hfits, iff_of_true rfl hfits⟩

theorem Reachable.openAt_decides {schema : Schema} {config : Config}
    (h : Reachable schema config p) (hs : schema.Accepted) {cursor : Int} {f : Fragment}
    (hf : schema.fragment? cursor = some f) (bytes : Nat) :
    p.Decides ⟨f.words, bytes⟩ (p.openAt cursor bytes).1 := by
  refine decides_of (h.openAt_of_room hs hf) fun hfull => ?_
  obtain ⟨rfl, -⟩ := h.follows hs.compiled
  rw [(h.ordered hs).openAt_of_full hf hfull]

theorem Ordered.accept_decides (h : p.Ordered) {c : Consumer} (hprepared : c.hasFragment = true)
    (transfer : Ring → Mark → Ring) : p.Decides c.extent (p.accept c transfer).1 := by
  rcases p.accept_cases c transfer with
    ⟨hnone, -⟩ | ⟨-, ⟨seen, hseen, hfits, haccept⟩ | ⟨hfull, haccept⟩⟩
  · rw [hprepared] at hnone
    cases hnone
  · rw [haccept]
    exact decides_of (fun _ => rfl) fun hfull => absurd (h.fits hseen hfits) hfull
  · rw [haccept]
    exact decides_of (fun hroom => absurd hroom hfull) fun _ => rfl

theorem directRoom_iff (p : Pipe) (request : Mark) :
    Direct.roomFor p request = true ↔ p.FitsBehind p.ring.tail request := decide_eq_true_iff

theorem Ordered.fitsBehind_ofWords (h : p.Ordered) (words : Nat) :
    p.FitsBehind p.ring.tail (.ofWords words) ↔
      p.producer.head.words + words ≤ p.ring.tail.words + p.ring.capacity.words :=
  ⟨fun hfits => hfits.1, fun hfits => ⟨hfits, h.room.2⟩⟩

theorem Ordered.fitsBehind_ofBytes (h : p.Ordered) (bytes : Nat) :
    p.FitsBehind p.ring.tail (.ofBytes bytes) ↔
      p.producer.head.bytes + bytes ≤ p.ring.tail.bytes + p.ring.capacity.bytes :=
  ⟨fun hfits => hfits.2, fun hfits => ⟨h.room.1, hfits⟩⟩

theorem done_or_overruns {channel : ChannelName} {reply : Except Fault Unit} {fits : Prop}
    (hroom : fits → reply = .ok ()) (hfull : ¬ fits → Overruns channel reply) :
    (reply = .ok () ↔ fits) ∧ (Overruns channel reply ↔ ¬ fits) := by
  have hexclusive : reply = .ok () → ¬ Overruns channel reply := by
    rintro rfl ⟨requested, limit, herror⟩
    cases herror
  exact ⟨⟨fun hdone => Classical.byContradiction fun hmisfit => hexclusive hdone (hfull hmisfit),
    hroom⟩, ⟨fun hoverruns hfits => hexclusive (hroom hfits) hoverruns, hfull⟩⟩

theorem Ordered.claim_decides (h : p.Ordered) (words : Nat) :
    ((p.claim words).1 = .ok () ↔
        p.producer.head.words + words ≤ p.ring.tail.words + p.ring.capacity.words) ∧
      (Overruns .structured (p.claim words).1 ↔
        p.ring.tail.words + p.ring.capacity.words < p.producer.head.words + words) := by
  obtain ⟨seen, hroom, -⟩ := h.roomFor_eq (.ofWords words)
  rw [← Nat.not_le, ← h.fitsBehind_ofWords, ← directRoom_iff]
  refine done_or_overruns (fun hfits => ?_) (fun hfull => ?_) <;> unfold claim
  · simp only [hroom, hfits, ↓reduceIte]
  · simp only [hroom, hfull]
    exact ⟨_, _, rfl⟩

/-- Bytes are refused if they do not fit, or if their span ends too far behind its message; nothing
else can go wrong in a field of some depth of the schema. -/
theorem Ordered.storeBytes_decides (h : p.Ordered) {loc : Locator}
    (hdepth : loc.depth < p.producer.starts.size) (data : List UInt8) :
    ((p.storeBytes loc data).1 = .ok () ↔
        p.producer.head.bytes + data.length ≤ p.ring.tail.bytes + p.ring.capacity.bytes ∧
          p.producer.head.bytes - p.producer.byteBase + data.length ≤ maxSpan) ∧
      (Overruns .byte (p.storeBytes loc data).1 ↔
        p.ring.tail.bytes + p.ring.capacity.bytes < p.producer.head.bytes + data.length ∨
          maxSpan < p.producer.head.bytes - p.producer.byteBase + data.length) := by
  obtain ⟨seen, hroom, -⟩ := h.roomFor_eq (.ofBytes data.length)
  have hstart : p.producer.starts[loc.depth]? = some p.producer.starts[loc.depth] :=
    Array.getElem?_eq_getElem hdepth
  rw [← Nat.not_le, ← Nat.not_le, ← Classical.not_and_iff_not_or_not, ← h.fitsBehind_ofBytes,
    ← directRoom_iff]
  refine done_or_overruns (fun hfits => ?_) (fun hmisfit => ?_) <;> unfold storeBytes
  · simp only [hroom, hfits.1, Bool.not_true, Bool.false_eq_true, ↓reduceIte, Pipe.glance,
      Nat.not_lt.2 hfits.2, hdepth, storeWords, Producer.position?, hstart, Option.map_some]
  · by_cases hroomy : Direct.roomFor p (.ofBytes data.length) = true
    · have hspan : maxSpan < p.producer.head.bytes - p.producer.byteBase + data.length :=
        Nat.not_le.1 fun hspan => hmisfit ⟨hroomy, hspan⟩
      simp only [hroom, hroomy, Bool.not_true, Bool.false_eq_true, ↓reduceIte, Pipe.glance, hspan]
      exact ⟨_, _, rfl⟩
    · simp only [hroom, hroomy, Bool.not_false, ↓reduceIte]
      exact ⟨_, _, rfl⟩

end Deciding

def fill (p : Pipe) : List (Locator × Value) → Pipe
  | [] => p
  | (loc, value) :: rest => (p.write loc value).2.fill rest

def filled (p : Pipe) : List (Locator × Value) → Nat
  | [] => 0
  | (loc, value) :: rest =>
    (if (p.write loc value).1.isOk then value.byteLength else 0) + (p.write loc value).2.filled rest

section Filling

variable {p q : Pipe}

/-- A write appends the bytes of its value if it is taken, and leaves what was open as it is. -/
theorem head_write (p : Pipe) (loc : Locator) (value : Value) :
    (p.write loc value).2.producer.head.bytes = p.producer.head.bytes +
        (if (p.write loc value).1.isOk then value.byteLength else 0) ∧
      (p.write loc value).2.producer.pending = p.producer.pending := by
  have hwords : ∀ words, value.byteLength = 0 →
      (p.storeWords loc words).2.producer.head.bytes = p.producer.head.bytes +
          (if (p.storeWords loc words).1.isOk then value.byteLength else 0) ∧
        (p.storeWords loc words).2.producer.pending = p.producer.pending := by
    intro words hnone
    rw [hnone, ite_self]
    rcases p.storeWords_cases loc words with ⟨start, -, hstore⟩ | ⟨-, hstore⟩ <;> rw [hstore] <;>
      exact ⟨rfl, rfl⟩
  cases value with
  | word | long | decimal => exact hwords _ rfl
  | bytes data =>
    show (p.storeBytes loc data).2.producer.head.bytes = p.producer.head.bytes +
        (if (p.storeBytes loc data).1.isOk then data.length else 0) ∧
      (p.storeBytes loc data).2.producer.pending = p.producer.pending
    rcases p.storeBytes_cases loc data with
      ⟨seen, -, -, ⟨cause, hstore⟩ | ⟨-, hstore⟩ | ⟨start, -, -, hstore⟩⟩ | ⟨-, cause, hstore⟩ <;>
      rw [hstore] <;> exact ⟨rfl, rfl⟩

theorem head_fill (p : Pipe) (fields : List (Locator × Value)) :
    (p.fill fields).producer.head.bytes = p.producer.head.bytes + p.filled fields ∧
      (p.fill fields).producer.pending = p.producer.pending := by
  induction fields generalizing p with
  | nil => exact ⟨rfl, rfl⟩
  | cons field rest ih =>
    obtain ⟨hhead, hpending⟩ := p.head_write field.1 field.2
    obtain ⟨hheads, hpendings⟩ := ih (p.write field.1 field.2).2
    refine ⟨?_, hpendings.trans hpending⟩
    rw [hhead, Nat.add_assoc] at hheads
    exact hheads

theorem word_write_of_slot_ne {loc : Locator} {value : Value} {start i : Nat}
    (hstart : p.producer.starts[loc.depth]? = some start)
    (hapart : ∀ k, k < value.shape.words →
      p.ring.words.slot (start + loc.offset + k) ≠ p.ring.words.slot i) :
    (p.write loc value).2.ring.word i = p.ring.word i := by
  have hstore : ∀ words : List Int32, words.length = value.shape.words →
      (p.storeWords loc words).2.ring.word i = p.ring.word i := by
    intro words hlength
    unfold storeWords Producer.position?
    rw [hstart]
    exact p.ring.words.get_write_of_slot_ne _ i words (hlength ▸ hapart)
  cases value with
  | word | long | decimal => exact hstore _ rfl
  | bytes data =>
    show (p.storeBytes loc data).2.ring.word i = p.ring.word i
    rcases p.storeBytes_cases loc data with
      ⟨seen, -, -, ⟨cause, hwrite⟩ | ⟨-, hwrite⟩ | ⟨begin, hbegin, -, hwrite⟩⟩ | ⟨-, cause, hwrite⟩
    · rw [hwrite]
      rfl
    · rw [hwrite]
      rfl
    · rw [hstart] at hbegin
      cases hbegin
      rw [hwrite]
      exact p.ring.words.get_write_of_slot_ne _ i
        [Int32.ofNat (p.producer.head.bytes - p.producer.byteBase), Int32.ofNat data.length] hapart
    · rw [hwrite]
      rfl

theorem word_publish {opened : OpenFragment} (h : p.producer.pending = some opened) :
    p.publish.ring.word opened.trailer =
      Int32.ofNat (p.producer.head.bytes - opened.bytesStart) := word_storeTrailer h

/-- The trailer counts all bytes that were appended since the fragment was opened. -/
theorem word_publish_fill {opened : OpenFragment} (h : p.producer.pending = some opened)
    (fields : List (Locator × Value)) :
    (p.fill fields).publish.ring.word opened.trailer =
      Int32.ofNat (p.producer.head.bytes + p.filled fields - opened.bytesStart) := by
  obtain ⟨hhead, hpending⟩ := p.head_fill fields
  rw [word_publish (hpending.trans h), hhead]

theorem Recalls.filled (h : p.Recalls q) (fields : List (Locator × Value)) :
    p.filled fields = q.filled fields := by
  induction fields generalizing p q with
  | nil => rfl
  | cons field rest ih =>
    obtain ⟨hreply, hpipes⟩ := h.act (.run (.write field.1 field.2))
    have htaken : (p.write field.1 field.2).1.isOk = (q.write field.1 field.2).1.isOk := by
      change (p.write field.1 field.2).1.map _ = (q.write field.1 field.2).1.map _ at hreply
      cases hp : (p.write field.1 field.2).1 <;> cases hq : (q.write field.1 field.2).1 <;>
        rw [hp, hq] at hreply <;> first | rfl | cases hreply
    have hrest : (p.write field.1 field.2).2.filled rest =
        (q.write field.1 field.2).2.filled rest := ih hpipes
    unfold Pipe.filled
    rw [htaken, hrest]

end Filling

end Pipe

namespace Network

def Refuses (n : Network) (s : Step) : Prop :=
  (n.step s).1 = .ok (.flag false) ∨ ∃ fault, (n.step s).1 = .error fault

theorem step_of_isRequest {n : Network} {s : Step} {p : Pipe}
    (hp : n.pipes[s.focus]? = some p) (h : s.isRequest = true) :
    (∃ action, action.isRequest = true ∧
        n.step s = ((p.act action).1, ⟨n.pipes.setIfInBounds s.focus (p.act action).2⟩)) ∨
      n.step s = (.error .outOfRange, n) := by
  unfold Network.step
  cases s with
  | query | join => cases h
  | command i command =>
    change n.pipes[i]? = some p at hp
    refine .inl ⟨.run command, ?_, by simp only [hp]; rfl⟩
    cases command <;> first | rfl | cases h
  | relay source target =>
    change n.pipes[target]? = some p at hp
    cases hsource : n.pipes[source]? with
    | none =>
      right
      simp only [hsource]
    | some origin =>
      left
      by_cases hsame : source = target
      · exact ⟨.relayWithin, rfl, by simp only [hp, hsame, ↓reduceIte]; rfl⟩
      · exact ⟨.relayFrom origin, rfl, by simp only [hsource, hp, hsame, ↓reduceIte]; rfl⟩

end Network

namespace Pipe

section Requests

variable {schema : Schema} {config : Config} {p : Pipe}

theorem setIfInBounds_self {pipes : Array Pipe} {i : Nat} (h : pipes[i]? = some p) :
    pipes.setIfInBounds i p = pipes := by
  obtain ⟨hinside, rfl⟩ := Array.getElem?_eq_some_iff.1 h
  rw [Array.setIfInBounds_def, dif_pos hinside]
  exact Array.set_getElem_self hinside

/-- A request that is refused in a network leaves all of it as it was, but for the tail that the
producer has seen, and might as well not have been made. -/
theorem Reachable.step_refused (h : Reachable schema config p) (hs : schema.Accepted) {n : Network}
    {s : Step} (hp : n.pipes[s.focus]? = some p) (hrequest : s.isRequest = true)
    (hrefused : n.Refuses s) :
    ∃ seen, (n.step s).2 = ⟨n.pipes.setIfInBounds s.focus (p.glance seen)⟩ ∧
      (p.glance seen).Recalls p := by
  rcases Network.step_of_isRequest hp hrequest with ⟨action, haction, hstep⟩ | hstep
  · have hrefuses : p.Refuses action := by
      unfold Network.Refuses at hrefused
      rw [hstep] at hrefused
      exact hrefused
    have hne : action ≠ .run .publishMarker := by
      rintro rfl
      cases haction
    have hrecalls := hrefuses.recalls (h.coherent hs) hne
    obtain ⟨seen, hglance⟩ := hrefuses.glances haction
    rw [hglance] at hrecalls
    exact ⟨seen, by rw [hstep, hglance], hrecalls⟩
  · refine ⟨p.producer.seenTail, ?_, .inl rfl⟩
    rw [hstep]
    exact congrArg Network.mk (setIfInBounds_self hp).symm

/-- In every state of every run, each request of the producer is decided by the released tail. A
fragment is opened, and a prepared one is passed on, exactly if its words and bytes fit behind it;
words are claimed exactly if they fit; bytes are written exactly if they fit and their span ends
within a signed word of their message. A request that is refused leaves the whole network as it was,
the source of a copy included, but for the tail that the producer has seen, and nothing later shows
that it was made. The trailer of a fragment that was open then counts all bytes that are appended to
it, before and after. -/
theorem requests_decided (h : Reachable schema config p) (hs : schema.Accepted) :
    (∀ cursor f bytes, schema.fragment? cursor = some f →
      p.Decides ⟨f.words, bytes⟩ (p.openAt cursor bytes).1) ∧
    (∀ words,
      ((p.claim words).1 = .ok () ↔
          p.producer.head.words + words ≤ p.ring.tail.words + p.ring.capacity.words) ∧
        (Overruns .structured (p.claim words).1 ↔
          p.ring.tail.words + p.ring.capacity.words < p.producer.head.words + words)) ∧
    (∀ loc data, loc.depth < schema.maxFragmentDepth →
      ((p.write loc (.bytes data)).1 = .ok () ↔
          p.producer.head.bytes + data.length ≤ p.ring.tail.bytes + p.ring.capacity.bytes ∧
            p.producer.head.bytes - p.producer.byteBase + data.length ≤ maxSpan) ∧
        (Overruns .byte (p.write loc (.bytes data)).1 ↔
          p.ring.tail.bytes + p.ring.capacity.bytes < p.producer.head.bytes + data.length ∨
            maxSpan < p.producer.head.bytes - p.producer.byteBase + data.length)) ∧
    (∀ source : Pipe, source.consumer.hasFragment = true →
      p.Decides source.consumer.extent (p.relayFrom source).1) ∧
    (p.consumer.hasFragment = true → p.Decides p.consumer.extent p.relayWithin.1) ∧
    ∀ (n : Network) (s : Step), n.pipes[s.focus]? = some p → s.isRequest = true → n.Refuses s →
      ∃ seen, (n.step s).2 = ⟨n.pipes.setIfInBounds s.focus (p.glance seen)⟩ ∧
        (n.step s).2.Indistinct n ∧
        ∀ opened, p.producer.pending = some opened → ∀ fields,
          ((p.glance seen).fill fields).publish.ring.word opened.trailer =
            Int32.ofNat (p.producer.head.bytes + p.filled fields - opened.bytesStart) := by
  have hordered := h.ordered hs
  refine ⟨fun cursor f bytes hf => h.openAt_decides hs hf bytes,
    fun words => hordered.claim_decides words, fun loc data hdepth => ?_,
    fun source hprepared => hordered.accept_decides hprepared _,
    fun hprepared => hordered.accept_decides hprepared _, fun n s hp hrequest hrefused => ?_⟩
  · rw [← h.slots hs] at hdepth
    exact hordered.storeBytes_decides hdepth data
  · obtain ⟨seen, hstep, hrecalls⟩ := h.step_refused hs hp hrequest hrefused
    refine ⟨seen, hstep, ?_, fun opened hopened fields => ?_⟩
    · have hsame := hrecalls.interchangeable n.pipes s.focus
      rw [setIfInBounds_self hp] at hsame
      rw [hstep]
      exact hsame
    · rw [← hrecalls.filled fields]
      exact word_publish_fill (p := p.glance seen) hopened fields

/-- Seven words are refused behind two open fragments of a book; the trailer of the second still
counts two letters that are written to it afterwards. -/
theorem requests_decided_book :
    ∃ p, Reachable Schema.book ⟨⟨4, 3⟩, 1⟩ p ∧ p.producer.pending = some ⟨9, 0⟩ ∧
      Overruns .structured (p.claim 7).1 ∧ ∃ seen,
        (Network.step ⟨#[p]⟩ (.command 0 (.claim 7))).2 = ⟨#[p.glance seen]⟩ ∧
        ((p.glance seen).fill [(⟨1, 3⟩, .bytes [72, 105])]).publish.ring.word 9 = 2 := by
  have haccepted : Schema.book.Accepted :=
    ⟨Schema.compiled_book, by decide, by decide, by decide⟩
  have hbuilt : Reachable Schema.book ⟨⟨4, 3⟩, 1⟩ (fresh Schema.book ⟨⟨4, 3⟩, 1⟩) :=
    .built (build_eq_fresh (by decide +kernel))
  obtain ⟨p, hrun, hpending, hfull, hfilled⟩ : ∃ p, Reachable Schema.book ⟨⟨4, 3⟩, 1⟩ p ∧
      p.producer.pending = some ⟨9, 0⟩ ∧
      p.ring.tail.words + p.ring.capacity.words < p.producer.head.words + 7 ∧
      p.producer.head.bytes + p.filled [(⟨1, 3⟩, .bytes [72, 105])] = 2 :=
    ⟨_, (hbuilt.act (.run (.openAt 0 0))).act (.run (.openAt 3 0)), by decide +kernel⟩
  obtain ⟨-, hclaim, -, -, -, hrefused⟩ := requests_decided hrun haccepted
  have hoverrun := (hclaim 7).2.2 hfull
  have hstep : Network.Refuses ⟨#[p]⟩ (.command 0 (.claim 7)) := by
    obtain ⟨requested, limit, hreply⟩ := hoverrun
    right
    exact ⟨_, congrArg (Except.map fun _ => Reply.done) hreply⟩
  obtain ⟨seen, hglance, -, htrailer⟩ := hrefused _ _ rfl rfl hstep
  refine ⟨p, hrun, hpending, hoverrun, seen, hglance, ?_⟩
  rw [htrailer _ hpending, hfilled]
  rfl

end Requests

end Pipe

end FragmentPipe
