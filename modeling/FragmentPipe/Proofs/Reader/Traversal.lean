import FragmentPipe.Proofs.Reader.Repeats
import FragmentPipe.Proofs.Reader.Cursor

set_option autoImplicit false

namespace FragmentPipe

/-- A prepared fragment and the sequence length that was found at its end, 0 where none stands. -/
structure Visit where
  cursor : Nat
  length : Nat
deriving DecidableEq, Repr

namespace Pipe

def visit? (p : Pipe) : Option Visit :=
  p.consumer.cursor.bind fun cursor => (p.schema.fragment? cursor).map fun fragment =>
    ⟨cursor, (p.ring.lengthOf p.schema p.consumer.tail.words fragment).toNat⟩

/-- The trace behind a read: a prepared message begins it anew, a prepared continuation extends it,
and an end of stream leaves none. -/
def traceRead (trace : List Visit) : Except Fault Reply × Pipe → List Visit
  | (.ok (.flag true), q) =>
    if q.consumer.isNewMessage then q.visit?.toList else trace ++ q.visit?.toList
  | _ => trace

def traceAfter (p : Pipe) (trace : List Visit) (action : Action) : List Visit :=
  match action with
  | .run .reset => []
  | .run .read | .run .readMessage | .run .readContinuation => traceRead trace (p.act action)
  | _ => trace

inductive Traced (schema : Schema) (config : Config) : Pipe → List Visit → Prop where
  | built {p : Pipe} (h : build schema config = .ok p) : Traced schema config p []
  | act {p : Pipe} {trace : List Visit} (h : Traced schema config p trace) (action : Action) :
      Traced schema config (p.act action).2 (p.traceAfter trace action)

theorem Traced.reachable {schema : Schema} {config : Config} {p : Pipe} {trace : List Visit}
    (h : Traced schema config p trace) : Reachable schema config p := by
  induction h with
  | built h => exact .built h
  | act _ action ih => exact ih.act action

def Agrees (lengths : Nat → Nat) (visits : List Visit) : Prop :=
  ∀ i visit, visits[i]? = some visit → lengths i = visit.length

theorem Agrees.of_append {lengths : Nat → Nat} {trace : List Visit} {visit : Visit}
    (h : Agrees lengths (trace ++ [visit])) :
    Agrees lengths trace ∧ lengths trace.length = visit.length := by
  refine ⟨fun i found hfound => h i found ?_, h trace.length visit (by simp)⟩
  rw [List.getElem?_append_left (List.getElem?_eq_some_iff.1 hfound).1]
  exact hfound

/-- The reader is on its course through the message that it read last, or stands before any. -/
def OnCourse (p : Pipe) (trace : List Visit) : Prop :=
  (trace = [] ∧ p.consumer.nextCursor = none) ∨
    ∃ id place, p.consumer.messageId = some id ∧ p.schema.isMessageStart id = true ∧ trace ≠ [] ∧
      p.consumer.nextCursor = some place.position ∧ p.consumer.sequences.frames = place.frames ∧
      ∀ lengths, Agrees lengths trace →
        p.schema.Course lengths id (trace.map Visit.cursor) place

theorem KeepsReader.onCourse {p q : Pipe} {trace : List Visit} (h : p.KeepsReader q)
    (hcourse : p.OnCourse trace) : q.OnCourse trace := by
  unfold OnCourse
  rw [h.nextCursor, h.messageId, h.schema, h.sequences]
  exact hcourse

end Pipe

theorem Schema.leave_toNat (s : Schema) (f : Fragment) (length : Int)
    (frames : List (SequenceFrame Nat)) :
    s.leave f length.toNat frames = s.leave f length frames := by
  unfold Schema.leave
  split
  · rfl
  · unfold Schema.advance
    by_cases hpos : 0 < length
    · rw [Int.toNat_of_nonneg (Int.le_of_lt hpos)]
    · rw [if_neg hpos, if_neg (show ¬ (0 : Int) < length.toNat by omega)]

namespace Pipe

section Reads

variable {p q : Pipe} {trace : List Visit} {bytes : Nat}

theorem visit?_of_moved {item : ReadItem} {f : Fragment}
    (hmoved : p.Moved p.consumer.next item bytes q) (hfragment : item.fragment? = some f)
    (hf : p.schema.fragment? f.start = some f) :
    q.visit? = some ⟨f.start, (p.ring.lengthOf p.schema p.consumer.next f).toNat⟩ := by
  have hring : q.ring.lengthOf p.schema q.consumer.tail.words f =
      p.ring.lengthOf p.schema p.consumer.next f := by
    obtain ⟨tail, -, hring⟩ := hmoved.ring
    rw [hring, hmoved.tail]
    rfl
  unfold visit?
  rw [hmoved.cursor, hfragment, hmoved.schema]
  simp only [Option.map_some, Option.bind_some, hf, hring]

theorem onCourse_of_announces (hs : p.schema.LaidOut) {item : ReadItem} (hitem : p.Announces item)
    (hmoved : p.Moved p.consumer.next item bytes q) :
    q.consumer.isNewMessage = true ∧ q.OnCourse q.visit?.toList := by
  have hsits := ReadItem.sits_of_announces hs hitem p.consumer.sequences.frames
  cases item with
  | marker =>
    refine ⟨hmoved.isNewMessage, .inl ⟨?_, (hmoved.marker rfl).1⟩⟩
    unfold visit?
    rw [hmoved.cursor]
    rfl
  | message f =>
    have hf := hsits.fragment f rfl
    obtain ⟨hnext, hframes⟩ := hmoved.place f rfl
    refine ⟨hmoved.isNewMessage, .inr ⟨f.start, _, hmoved.messageId, ?_, ?_, hnext, hframes, ?_⟩⟩
    · rw [hmoved.schema]
      exact hsits.message f rfl
    · rw [visit?_of_moved hmoved rfl hf]
      simp
    · intro lengths hagrees
      rw [visit?_of_moved hmoved rfl hf, Option.toList_some] at hagrees ⊢
      have hbegun : p.schema.Course lengths f.start [] ⟨f.start, []⟩ := .begin
      have hvisit := hbegun.visit hf (.inl rfl)
      rw [List.length_nil, hagrees 0 _ rfl, Schema.leave_toNat] at hvisit
      rw [hmoved.schema]
      exact hvisit
  | continuation f =>
    obtain ⟨id, -, hid⟩ := hitem
    cases id with
    | endOfStream => cases hid
    | message id =>
      obtain ⟨g, -, hg⟩ := Option.map_eq_some_iff.1 hid
      cases hg

theorem onCourse_of_continues (hfollows : p.consumer.Follows p.schema)
    (hcourse : p.OnCourse trace) {item : ReadItem} (hitem : p.Continues item)
    (hmoved : p.Moved p.consumer.next item bytes q) :
    q.consumer.isNewMessage = false ∧ q.OnCourse (trace ++ q.visit?.toList) := by
  have hsits := ReadItem.sits_of_continues hfollows hitem
  obtain ⟨hdue, f, hfragment, rfl⟩ := hitem
  have hf := hsits.fragment f rfl
  obtain ⟨hnext, hframes⟩ := hmoved.place f rfl
  rcases hcourse with ⟨-, hnone⟩ | ⟨id, place, hid, hstart, hne, hplace, hsame, hcourse⟩
  · simp [isMessageDue, hnone] at hdue
  · have hposition : place.position = f.start := by
      rw [hplace] at hfragment
      exact Int.ofNat.inj (Schema.fragment?_eq_some hfragment).1
    have hnot : p.schema.isMessageStart place.position = false := by
      simp only [isMessageDue, hplace, Bool.or_eq_false_iff] at hdue
      exact hdue.2
    refine ⟨hmoved.isNewMessage, .inr ⟨id, _, ?_, ?_, by simp [hne], hnext, hframes, ?_⟩⟩
    · rw [hmoved.messageId]
      exact hid
    · rw [hmoved.schema]
      exact hstart
    · intro lengths hagrees
      rw [visit?_of_moved hmoved rfl hf, Option.toList_some] at hagrees ⊢
      obtain ⟨hbefore, hlength⟩ := hagrees.of_append
      have hvisit := (hcourse lengths hbefore).visit (f := f) (by rw [hposition]; exact hf)
        (.inr hnot)
      rw [List.length_map, hlength, hposition, Schema.leave_toNat, ← hsame] at hvisit
      rw [hmoved.schema, List.map_append]
      exact hvisit

end Reads

theorem Attempt.onCourse {p : Pipe} {trace : List Visit} {expected : ReadItem → Prop}
    {result : Except Fault Bool × Pipe} (h : p.Attempt expected result) (hs : p.schema.LaidOut)
    (hfollows : p.consumer.Follows p.schema) (hcourse : p.OnCourse trace)
    (hexpected : ∀ item, expected item → p.Announces item ∨ p.Continues item) :
    result.2.OnCourse (traceRead trace (replying .flag result)) := by
  cases h with
  | moved hitem _ hmoved _ =>
    simp only [replying, Except.map, traceRead]
    rcases hexpected _ hitem with hannounces | hcontinues
    · obtain ⟨hnew, hnext⟩ := onCourse_of_announces hs hannounces hmoved
      rw [if_pos hnew]
      exact hnext
    · obtain ⟨hnew, hnext⟩ := onCourse_of_continues hfollows hcourse hcontinues hmoved
      rw [if_neg (by simp [hnew])]
      exact hnext
  | nothing hunmoved _ => exact hunmoved.keepsReader.onCourse hcourse
  | corrupt hunmoved _ => exact hunmoved.keepsReader.onCourse hcourse

theorem onCourse_act {p : Pipe} {trace : List Visit} (hs : p.schema.LaidOut)
    (hfollows : p.consumer.Follows p.schema) (hcourse : p.OnCourse trace) (action : Action) :
    (p.act action).2.OnCourse (p.traceAfter trace action) := by
  cases hmoves : action.movesReader with
  | false =>
    have hsame : p.traceAfter trace action = trace := by
      cases action with
      | relayFrom source | relayWithin => rfl
      | run command => cases command <;> first | rfl | cases hmoves
    rw [hsame]
    exact (p.keepsReader_act hmoves).onCourse hcourse
  | true =>
    cases action with
    | relayFrom source | relayWithin => cases hmoves
    | run command =>
      cases command with
      | openAt | write | storeAhead | claim | publish | publishMarker | rebaseWrites | roomFor
      | isVisible | releaseNow | rebaseReads | skip => cases hmoves
      | read =>
        exact (attempt_read hs hfollows).onCourse hs hfollows hcourse fun _ h => h.either
      | readMessage =>
        exact (attempt_readMessage hs hfollows).onCourse hs hfollows hcourse fun _ h => .inl h
      | readContinuation =>
        by_cases hdue : p.isMessageDue = true
        · show p.readContinuation.2.OnCourse (traceRead trace (replying .flag p.readContinuation))
          rw [readContinuation_of_due hdue]
          exact hcourse
        · exact (attempt_readContinuation hs hfollows (by simpa using hdue)).onCourse hs hfollows
            hcourse fun _ h => .inr h
      | reset => exact .inl ⟨rfl, rfl⟩

theorem Traced.onCourse {schema : Schema} {config : Config} {p : Pipe} {trace : List Visit}
    (h : Traced schema config p trace) (hs : schema.Compiled) : p.OnCourse trace := by
  induction h with
  | built h =>
    rw [eq_fresh_of_build h]
    exact .inl ⟨rfl, rfl⟩
  | act h action ih =>
    obtain ⟨hschema, hfollows⟩ := h.reachable.follows hs
    exact onCourse_act (hschema ▸ hs.laidOut) hfollows ih action

/-- A trace is the beginning of what its message unfolds to, and all of it exactly when the next
message is due. -/
theorem prefix_unfold_of_onCourse {p : Pipe} {trace : List Visit} (hs : p.schema.LaidOut)
    (h : p.OnCourse trace) (hne : trace ≠ []) :
    ∃ id, p.consumer.messageId = some id ∧ p.schema.isMessageStart id = true ∧
      ∀ script : Script, script.tokens = p.schema.tokens → ∀ lengths, Agrees lengths trace →
        trace.map Visit.cursor <+: script.unfold lengths id ∧
          (p.isMessageDue = true ↔ trace.map Visit.cursor = script.unfold lengths id) ∧
          (p.isMessageDue = false →
            (script.unfold lengths id)[trace.length]? = p.consumer.nextCursor) := by
  rcases h with ⟨hnil, -⟩ | ⟨id, place, hid, hstart, -, hnext, -, hcourse⟩
  · exact absurd hnil hne
  · refine ⟨id, hid, hstart, fun script htokens lengths hagrees => ?_⟩
    have hread := hcourse lengths hagrees
    obtain ⟨last, hwhole, hdue, hmoved⟩ := Schema.course_script hs lengths htokens hstart
    have hdueAt : p.isMessageDue = true ↔ p.schema.DueAt place.position := by
      simp [isMessageDue, hnext, Schema.DueAt]
    have hcursors : trace.map Visit.cursor ≠ [] := by simpa using hne
    have hnotDue : ∀ at_ : Nat, (p.schema.fragment? at_).isSome = true →
        p.schema.isMessageStart at_ = false → ¬ p.schema.DueAt at_ := by
      rintro at_ hsome hnot (hsize | hyes)
      · obtain ⟨f, hf⟩ := Option.isSome_iff_exists.1 hsome
        obtain ⟨hposition, e, -, he, -⟩ := Schema.fragment?_eq_some hf
        have := Schema.lt_size_of_getElem? he
        omega
      · rw [hnot] at hyes
        cases hyes
    by_cases hle : (trace.map Visit.cursor).length ≤ (script.unfold lengths id).length
    · obtain ⟨hfront, hsame, hmore⟩ := hread.compare hwhole hle
      by_cases hlt : (trace.map Visit.cursor).length < (script.unfold lengths id).length
      · obtain ⟨hget, hsome, hnil | hnot⟩ := hmore hlt
        · exact absurd hnil hcursors
        · refine ⟨hfront, ?_, fun _ => ?_⟩
          · rw [hdueAt]
            constructor
            · intro hdue'
              exact absurd hdue' (hnotDue _ hsome hnot)
            · intro heq
              rw [heq] at hlt
              exact absurd hlt (Nat.lt_irrefl _)
          · rw [hnext, ← hget, List.length_map]
      · have heq := hfront.eq_of_length (by omega)
        have hplaces := hsame (by rw [heq])
        subst hplaces
        refine ⟨hfront, ⟨fun _ => heq, fun _ => hdueAt.2 hdue⟩, fun hfalse => ?_⟩
        rw [hdueAt.2 hdue] at hfalse
        cases hfalse
    · -- The course cannot go on where the message is complete.
      exfalso
      obtain ⟨-, -, hmore⟩ := hwhole.compare hread (by omega)
      obtain ⟨-, hsome, hnil | hnot⟩ := hmore (by omega)
      · rw [hwhole.place_of_nil hnil] at hmoved
        exact absurd hmoved (Nat.lt_irrefl _)
      · exact hnotDue _ hsome hnot hdue

def lengthsOf (visits : List Visit) (i : Nat) : Nat := (visits[i]?.map Visit.length).getD 0

theorem agrees_lengthsOf (trace : List Visit) : Agrees (lengthsOf trace) trace := by
  intro i visit hvisit
  rw [lengthsOf, hvisit]
  rfl

theorem steady_lengthsOf {trace : List Visit} {counts : Nat → Nat}
    (h : ∀ visit ∈ trace, visit.length = counts visit.cursor) :
    Steady counts (lengthsOf trace) (trace.map Visit.cursor) := by
  intro i cursor hcursor
  rw [List.getElem?_map] at hcursor
  obtain ⟨visit, hvisit, rfl⟩ := Option.map_eq_some_iff.1 hcursor
  rw [agrees_lengthsOf trace i visit hvisit, h visit (List.mem_of_getElem? hvisit)]

/-- What a run visits of a message is the beginning of what the message unfolds to by the lengths
found on the way, and a message is due again exactly when nothing of it is missing. Then, if a
fragment's lengths were steady, every fragment was visited as often as the loops around it run. -/
theorem trace_unfolds {schema : Schema} {config : Config} {p : Pipe} {trace : List Visit}
    (h : Traced schema config p trace) (hs : schema.Compiled) (hne : trace ≠ []) :
    (∃ script : Script, script.tokens = schema.tokens) ∧
      ∃ id, p.consumer.messageId = some id ∧
        (∀ script : Script, script.tokens = schema.tokens → ∀ lengths, Agrees lengths trace →
          trace.map Visit.cursor <+: script.unfold lengths id ∧
            (p.isMessageDue = true ↔ trace.map Visit.cursor = script.unfold lengths id) ∧
            (p.isMessageDue = false →
              (script.unfold lengths id)[trace.length]? = p.consumer.nextCursor)) ∧
        ∀ counts : Nat → Nat, (∀ visit ∈ trace, visit.length = counts visit.cursor) →
          p.isMessageDue = true → ∀ cursor : Nat, (schema.fragment? cursor).isSome = true →
            schema.InMessage id cursor →
              (trace.map Visit.cursor).count cursor =
                schema.runs counts (schema.context cursor).bodies := by
  obtain ⟨rfl, -⟩ := h.reachable.follows hs
  obtain ⟨id, hid, hstart, hunfolds⟩ := prefix_unfold_of_onCourse hs.laidOut (h.onCourse hs) hne
  obtain ⟨script, htokens⟩ := hs.exists_script
  refine ⟨⟨script, htokens⟩, id, hid, hunfolds, fun counts hcounts hdue cursor hcursor hin => ?_⟩
  obtain ⟨-, hwhole, -⟩ := hunfolds script htokens _ (agrees_lengthsOf trace)
  have hsteady := steady_lengthsOf hcounts
  rw [hwhole.1 hdue] at hsteady ⊢
  exact Schema.count_script hs.laidOut htokens hstart hsteady hcursor hin

theorem trace_unfolds_book :
    ∃ p, Traced Schema.book ⟨⟨4, 3⟩, 1⟩ p [⟨0, 2⟩] ∧ p.isMessageDue = false ∧
      p.consumer.nextCursor = some 3 ∧ ∃ id, p.consumer.messageId = some id ∧
        ∀ script : Script, script.tokens = Schema.book.tokens → ∀ lengths, lengths 0 = 2 →
          [0] <+: script.unfold lengths id ∧ (script.unfold lengths id)[1]? = some 3 := by
  have hbuilt : Traced Schema.book ⟨⟨4, 3⟩, 1⟩ (fresh Schema.book ⟨⟨4, 3⟩, 1⟩) [] :=
    .built (build_eq_fresh (by decide +kernel))
  obtain ⟨p, hrun, hnotDue, hnext⟩ : ∃ p, Traced Schema.book ⟨⟨4, 3⟩, 1⟩ p [⟨0, 2⟩] ∧
      p.isMessageDue = false ∧ p.consumer.nextCursor = some 3 :=
    ⟨_, (((hbuilt.act (.run (.openAt 0 0))).act (.run (.write ⟨0, 2⟩ (.word 2)))).act
      (.run .publish)).act (.run .read), by decide +kernel, by decide +kernel⟩
  refine ⟨p, hrun, hnotDue, hnext, ?_⟩
  obtain ⟨-, id, hid, hunfolds, -⟩ := trace_unfolds hrun Schema.compiled_book (by decide)
  refine ⟨id, hid, fun script hscript lengths hlengths => ?_⟩
  have hagrees : Agrees lengths [⟨0, 2⟩] := by
    intro i visit hvisit
    cases i with
    | zero =>
      cases hvisit
      exact hlengths
    | succ i => cases hvisit
  obtain ⟨hfront, -, hmore⟩ := hunfolds script hscript lengths hagrees
  exact ⟨hfront, (hmore hnotDue).trans hnext⟩

end Pipe

end FragmentPipe
