import FragmentPipe.Proofs.Reader.Moves
import FragmentPipe.Proofs.Script.Unfolding

set_option autoImplicit false

namespace FragmentPipe

namespace Schema

def DueAt (s : Schema) (position : Nat) : Prop :=
  s.size ≤ position ∨ s.isMessageStart position = true

/-- The fragments visited since the message at `id` was begun, and the place reached. -/
inductive Course (s : Schema) (lengths : Nat → Nat) (id : Nat) : List Nat → Place → Prop where
  | begin : Course s lengths id [] ⟨id, []⟩
  | visit {visited : List Nat} {place : Place} {f : Fragment}
      (h : Course s lengths id visited place) (hf : s.fragment? place.position = some f)
      (hinside : visited = [] ∨ s.isMessageStart place.position = false) :
      Course s lengths id (visited ++ [place.position])
        (s.leave f (lengths visited.length) place.frames)

theorem Course.place_of_nil {s : Schema} {lengths : Nat → Nat} {id : Nat} {visited : List Nat}
    {place : Place} (h : s.Course lengths id visited place) (hnil : visited = []) :
    place = ⟨id, []⟩ := by
  cases h with
  | begin => rfl
  | visit => simp at hnil

section Compare

variable {s : Schema} {lengths : Nat → Nat} {id : Nat} {visited whole : List Nat}
  {place last : Place}

/-- Of two courses through one message the shorter is the beginning of the longer. -/
theorem Course.compare (h : s.Course lengths id visited place)
    (hwhole : s.Course lengths id whole last) (hle : visited.length ≤ whole.length) :
    visited <+: whole ∧ (visited.length = whole.length → place = last) ∧
      (visited.length < whole.length → whole[visited.length]? = some place.position ∧
        (s.fragment? place.position).isSome = true ∧
        (visited = [] ∨ s.isMessageStart place.position = false)) := by
  induction hwhole generalizing visited place with
  | begin =>
    have hnil : visited = [] := List.eq_nil_of_length_eq_zero (Nat.le_zero.1 hle)
    cases h with
    | begin => exact ⟨List.prefix_refl _, fun _ => rfl, fun hlt => absurd hlt (Nat.lt_irrefl _)⟩
    | visit => simp at hnil
  | @visit before at_ f hbefore hf hinside ih =>
    simp only [List.length_append, List.length_singleton] at hle ⊢
    by_cases hshort : visited.length ≤ before.length
    · obtain ⟨hfront, hsame, hnext⟩ := ih h hshort
      refine ⟨hfront.trans (List.prefix_append _ _), fun heq => by omega, fun _ => ?_⟩
      by_cases hlt : visited.length < before.length
      · obtain ⟨hget, hsome⟩ := hnext hlt
        rw [List.getElem?_append_left hlt]
        exact ⟨hget, hsome⟩
      · have heq : visited.length = before.length := by omega
        rw [hsame heq, heq]
        refine ⟨by simp, by rw [hf]; rfl, ?_⟩
        rcases hinside with hnil | hnot
        · left
          rw [hnil] at heq
          exact List.eq_nil_of_length_eq_zero heq
        · exact .inr hnot
    · cases h with
      | begin => exact absurd (Nat.zero_le _) hshort
      | @visit earlier place g hearlier hg hinside' =>
        simp only [List.length_append, List.length_singleton] at hshort hle
        obtain ⟨hfront, hsame, -⟩ := ih hearlier (by omega)
        have heq : earlier.length = before.length := by omega
        have hlists := hfront.eq_of_length heq
        have hplaces := hsame heq
        subst hlists hplaces
        rw [hf] at hg
        cases hg
        exact ⟨List.prefix_refl _, fun _ => rfl, fun hlt => by
          simp only [List.length_append, List.length_singleton] at hlt
          omega⟩

end Compare

def stand (s : Schema) (position : Nat) (draft : Option Nat) (frames : List (SequenceFrame Nat)) :
    Place :=
  match draft with
  | some start => ⟨start, frames⟩
  | none => s.settle position frames

section Simulation

variable {s : Schema} {lengths : Nat → Nat} {id p : Nat} {e : Entry} {visited : List Nat}
  {frames : List (SequenceFrame Nat)} {draft : Option Nat} {token : Token}

theorem stand_some_getD (ht : s.tokens[p]? = some token) (hopen : token.isClosing = false) :
    s.stand p draft frames = ⟨draft.getD p, frames⟩ := by
  cases draft with
  | some start => rfl
  | none =>
    rw [getElem?_tokens] at ht
    obtain ⟨e, he, rfl⟩ := Option.map_eq_some_iff.1 ht
    exact settle_of_not_closing he hopen

theorem stand_behind_close (ht : s.tokens[p]? = some token) (hclosing : token.isClosing = true)
    (hcloses : token.closesSequence = false) :
    s.stand p draft frames = s.stand (p + 1) draft frames := by
  cases draft with
  | some start => rfl
  | none =>
    rw [getElem?_tokens] at ht
    obtain ⟨e, he, rfl⟩ := Option.map_eq_some_iff.1 ht
    exact settle_of_isClosing he hclosing hcloses

theorem leave_of_ends (hs : s.LaidOut) (he : s.entries[p]? = some e) {held : FragmentDraft}
    (hheld : s.heldAt p = some held)
    (hends : (s.context (p + 1)).draft = none ∨ p + 1 = s.size) :
    ∃ f, s.fragment? held.start = some f ∧ f.start = held.start ∧
      ∀ length frames, s.leave f length frames = s.advance p e length frames := by
  rw [heldAt_eq he] at hheld
  obtain ⟨first, hfirst, hextent⟩ := hs.extent p e held he hheld hends
  have hle : held.start ≤ p := start_le_of_holder hheld
  refine ⟨⟨held.start, distance (held.words + e.token.words + 1), p + 1 - held.start,
    first.depth?.getD 0, first.startsMessage⟩, ?_, rfl, ?_⟩
  · rw [fragment?_ofNat hfirst, hextent]
    rfl
  · intro length frames
    have hlast : held.start + (p + 1 - held.start) - 1 = p := by omega
    unfold Schema.leave lastOf?
    simp only [hlast, he, Option.map_some]

theorem heldAt_of_around (he : s.entries[p]? = some e)
    (hdraft : (s.around p).draft = draft) (hheld : draft ≠ none ∨ e.token.isClosing = false) :
    ∃ held, s.heldAt p = some held ∧ held.start = draft.getD p := by
  have hp := lt_size_of_getElem? he
  subst hdraft
  unfold around at hheld ⊢
  simp only at hheld ⊢
  cases hd : (s.context p).draft with
  | some d => exact ⟨d, heldAt_of_draft hp hd, rfl⟩
  | none =>
    rw [hd] at hheld
    have hopen : e.token.isClosing = false := by
      rcases hheld with hne | hopen
      · exact absurd rfl hne
      · exact hopen
    rw [heldAt_eq he, Context.holder_of_none _ _ _ _ hd, hopen]
    exact ⟨_, rfl, rfl⟩

theorem isMessageStart_of_groups (hs : s.LaidOut) (hgroups : (s.around p).groups ≠ []) :
    s.isMessageStart p = false := by
  cases he : s.entries[p]? with
  | none => simp [isMessageStart, at?, he]
  | some e =>
    have hinside : (s.context p).groups ≠ [] := hgroups
    simp [isMessageStart_eq hs he, hinside]

def Inside (s : Schema) (visited : List Nat) (draft : Option Nat) : Prop :=
  visited = [] ∨ ∀ start, draft = some start → s.isMessageStart start = false

theorem Inside.getD (h : s.Inside visited draft) (hp : s.isMessageStart p = false) :
    visited = [] ∨ s.isMessageStart (draft.getD p) = false := by
  rcases h with hnil | hnot
  · exact .inl hnil
  · cases draft with
    | none => exact .inr hp
    | some start => exact .inr (hnot start rfl)

theorem Course.visit_ends (hs : s.LaidOut) (he : s.entries[p]? = some e)
    (hdraft : (s.around p).draft = draft) (hheld : draft ≠ none ∨ e.token.isClosing = false)
    (hends : (s.context (p + 1)).draft = none ∨ p + 1 = s.size)
    (hinside : visited = [] ∨ s.isMessageStart (draft.getD p) = false)
    (h : s.Course lengths id visited ⟨draft.getD p, frames⟩) :
    s.Course lengths id (visited ++ [draft.getD p])
      (s.advance p e (lengths visited.length) frames) := by
  obtain ⟨held, hat, hstart⟩ := heldAt_of_around he hdraft hheld
  obtain ⟨f, hf, -, hleave⟩ := leave_of_ends hs he hat hends
  rw [hstart] at hf
  rw [← hleave]
  exact h.visit hf hinside

theorem course_iterations {iterate : List Nat → List Nat} {body count : Nat} {after : Place}
    (hstep : ∀ visited (remaining : Int), 1 ≤ remaining →
      s.Course lengths id visited ⟨body, ⟨remaining, body⟩ :: frames⟩ →
      s.Course lengths id (iterate visited)
        (if 1 < remaining then ⟨body, ⟨remaining - 1, body⟩ :: frames⟩ else after))
    (hcount : 0 < count) (h : s.Course lengths id visited ⟨body, ⟨count, body⟩ :: frames⟩) :
    s.Course lengths id (Nat.repeat iterate count visited) after := by
  have hpartial : ∀ done, done ≤ count →
      s.Course lengths id (Nat.repeat iterate done visited)
        (if done < count then ⟨body, ⟨(count : Int) - done, body⟩ :: frames⟩ else after) := by
    intro done
    induction done with
    | zero =>
      intro _
      simpa [Nat.repeat, hcount] using h
    | succ done ih =>
      intro hle
      have hbefore := ih (by omega)
      rw [if_pos (by omega)] at hbefore
      have hnext := hstep _ _ (by omega) hbefore
      simp only [Nat.repeat]
      by_cases hlast : done + 1 < count
      · rw [if_pos hlast]
        rw [if_pos (by omega)] at hnext
        rwa [show (count : Int) - done - 1 = count - (done + 1 : Nat) by omega] at hnext
      · rw [if_neg hlast]
        rwa [if_neg (by omega)] at hnext
  have hall := hpartial count (Nat.le_refl _)
  rwa [if_neg (Nat.lt_irrefl _)] at hall

theorem settle_close {frame : SequenceFrame Nat} (he : s.entries[p]? = some e)
    (hcloses : e.token.closesSequence = true) :
    s.settle p (frame :: frames) =
      if 1 < frame.remaining then ⟨frame.body, ⟨frame.remaining - 1, frame.body⟩ :: frames⟩
      else s.settle (p + 1) frames := by
  rw [settle_of_closesSequence he hcloses]
  unfold finishFrame
  by_cases hmore : 1 < frame.remaining
  · simp [hmore]
  · simp [hmore]

/-- At the close of a sequence the fragment that goes on, if any, is the last of the iteration. -/
theorem course_close (hs : s.LaidOut) {kind : GroupKind} (ht : s.tokens[p]? = some token)
    (hrole : token.role = .closing kind) (hsequence : kind.sequence = true)
    (hdraft : (s.around p).draft = draft) (hinside : s.Inside visited draft)
    {frame : SequenceFrame Nat}
    (h : s.Course lengths id visited (s.stand p draft (frame :: frames))) :
    s.Course lengths id (visited ++ draft.toList)
      (if 1 < frame.remaining then ⟨frame.body, ⟨frame.remaining - 1, frame.body⟩ :: frames⟩
        else s.settle (p + 1) frames) := by
  have hnone : (s.context (p + 1)).draft = none := by
    have haround := around_of_closing (s := s) rfl ht hrole
    have hend : (s.around (p + 1)).draft = none := by rw [haround]; simp [hsequence]
    exact Option.map_eq_none_iff.1 hend
  rw [getElem?_tokens] at ht
  obtain ⟨e, he, rfl⟩ := Option.map_eq_some_iff.1 ht
  have hcloses : e.token.closesSequence = true :=
    (Token.closesSequence_of_role hrole).trans hsequence
  have hlength : e.token.isLength = false := Token.isLength_of_role hrole
  rw [← settle_close he hcloses]
  cases draft with
  | none =>
    rw [Option.toList_none, List.append_nil]
    exact h
  | some start =>
    have hstart : visited = [] ∨ s.isMessageStart start = false :=
      hinside.imp_right fun hnot => hnot start rfl
    have hvisit := Course.visit_ends hs he hdraft (.inl (by simp)) (.inl hnone) hstart h
    rwa [advance, if_neg (by simp [hlength]), if_pos hcloses] at hvisit

/-- Over a body a reader visits what the body unfolds to. -/
def CoursesBody (s : Schema) (lengths : Nat → Nat) (id : Nat) (body : Body) : Prop :=
  ∀ (p : Nat) (draft : Option Nat) (visited : List Nat) (frames : List (SequenceFrame Nat))
    (rest : List Token), s.tokens.drop p = body.tokens ++ rest → (s.around p).groups ≠ [] →
      (s.around p).draft = draft → s.Inside visited draft →
        s.Course lengths id visited (s.stand p draft frames) →
          s.Course lengths id (body.unfold lengths p draft visited)
              (s.stand (p + body.size) (body.draft p draft) frames) ∧
            s.Inside (body.unfold lengths p draft visited) (body.draft p draft)

section Constructors

variable {inner behind : Body}

theorem CoursesBody.plain (hs : s.LaidOut) (role : token.role = .plain)
    (h : s.CoursesBody lengths id behind) :
    s.CoursesBody lengths id (.plain token role behind) := by
  intro p draft visited frames rest hdrop hgroups hdraft hinside hcourse
  have ht := getElem?_of_drop hdrop
  have hopen : token.isClosing = false := Token.isClosing_of_role role
  have hnext := around_of_plain (s := s) rfl ht role
  rw [hdraft] at hnext
  have hstart := hinside.getD (isMessageStart_of_groups hs hgroups)
  rw [Body.size_plain, show p + (behind.size + 1) = p + 1 + behind.size by omega]
  apply h _ _ _ _ _ (drop_succ_of_drop hdrop) (by rw [hnext]; exact hgroups) (by rw [hnext])
  · exact hstart.imp_right fun hnot start heq => by cases heq; exact hnot
  · rw [stand_some_getD ht hopen] at hcourse
    exact hcourse

theorem CoursesBody.group (hs : s.LaidOut) {opening closing : Token}
    (opens : opening.role = .opening ⟨false, false⟩)
    (closes : closing.role = .closing ⟨false, false⟩) (hinner : s.CoursesBody lengths id inner)
    (hbehind : s.CoursesBody lengths id behind) :
    s.CoursesBody lengths id (.group opening closing opens closes inner behind) := by
  intro p draft visited frames rest h hgroups hdraft hinside hcourse
  simp only [Body.tokens, List.cons_append, List.append_assoc] at h
  have ht := getElem?_of_drop h
  have hopen : opening.isClosing = false := Token.isClosing_of_role opens
  have hclosing : closing.isClosing = true := Token.isClosing_of_role closes
  have hplain : closing.closesSequence = false := Token.closesSequence_of_role closes
  obtain ⟨hnext, hclose, hdrop, hafter⟩ := around_group h opens closes
  rw [hdraft] at hnext hafter
  have hstart := hinside.getD (isMessageStart_of_groups hs hgroups)
  rw [stand_some_getD ht hopen] at hcourse
  obtain ⟨hcourse', hinside'⟩ := hinner (p + 1) (some (draft.getD p)) visited frames _
    (drop_succ_of_drop h) (by rw [hnext]; simp) (by rw [hnext])
    (hstart.imp_right fun hnot start heq => by cases heq; exact hnot) hcourse
  rw [stand_behind_close hclose hclosing hplain] at hcourse'
  rw [Body.size_group,
    show p + (inner.size + behind.size + 2) = p + 1 + inner.size + 1 + behind.size by omega]
  refine hbehind _ _ _ _ _ hdrop ?_ ?_ hinside' hcourse'
  · rw [hafter]
    exact hgroups
  · rw [hafter]

theorem CoursesBody.sequence (hs : s.LaidOut) {length opening closing : Token}
    (counts : length.role = .length) (opens : opening.role = .opening ⟨false, true⟩)
    (closes : closing.role = .closing ⟨false, true⟩) (hinner : s.CoursesBody lengths id inner)
    (hbehind : s.CoursesBody lengths id behind) :
    s.CoursesBody lengths id
      (.sequence length opening closing counts opens closes inner behind) := by
  intro p draft visited frames rest h hgroups hdraft hinside hcourse
  simp only [Body.tokens, List.cons_append, List.append_assoc] at h
  have hopen : length.isClosing = false := Token.isClosing_of_role counts
  obtain ⟨e, he, hetoken, hstop⟩ := sequenceEnd_sequence hs h counts opens closes
  have hislength : e.token.isLength = true := by
    rw [hetoken]
    exact Token.isLength_of_role counts
  obtain ⟨hlength, hfirst, hend, hclose, hdrop, hafter⟩ := around_sequence h counts opens closes
  have hstart := hinside.getD (isMessageStart_of_groups hs hgroups)
  have hbody : s.isMessageStart (p + 1 : Nat) = false :=
    isMessageStart_of_groups hs (by rw [hlength]; exact hgroups)
  have hnone : (s.context (p + 1)).draft = none :=
    Option.map_eq_none_iff.1 (congrArg Surroundings.draft hlength)
  rw [stand_some_getD (getElem?_of_drop h) hopen] at hcourse
  have hvisit := hcourse.visit_ends hs he hdraft (.inr (by rw [hetoken, hopen])) (.inl hnone) hstart
  rw [advance, if_pos hislength, hstop, Option.getD_some] at hvisit
  have hstep : ∀ visited (remaining : Int), 1 ≤ remaining →
      s.Course lengths id visited ⟨p + 1, ⟨remaining, p + 1⟩ :: frames⟩ →
      s.Course lengths id (inner.iterate lengths (p + 1) visited)
        (if 1 < remaining then ⟨p + 1, ⟨remaining - 1, p + 1⟩ :: frames⟩
          else s.settle (p + 2 + inner.size + 1) frames) := by
    intro visited remaining _ hbegun
    obtain ⟨hcourse', hinside'⟩ := hinner (p + 2) (some (p + 1)) visited
      (⟨remaining, p + 1⟩ :: frames) _ (drop_succ_of_drop (drop_succ_of_drop h))
      (by rw [hfirst]; simp) (by rw [hfirst]) (.inr fun start heq => by cases heq; exact hbody)
      hbegun
    exact course_close hs hclose closes rfl (by rw [hend]) hinside' hcourse'
  have hiterations : s.Course lengths id
      (Nat.repeat (inner.iterate lengths (p + 1)) (lengths visited.length)
        (visited ++ [draft.getD p]))
      (s.settle (p + 2 + inner.size + 1) frames) := by
    by_cases hcount : 0 < lengths visited.length
    · rw [if_pos (by omega)] at hvisit
      exact course_iterations hstep hcount hvisit
    · rw [if_neg (by omega)] at hvisit
      rw [Nat.eq_zero_of_not_pos hcount]
      exact hvisit
  rw [Body.size_sequence,
    show p + (inner.size + behind.size + 3) = p + 2 + inner.size + 1 + behind.size by omega]
  refine hbehind _ _ _ _ _ hdrop ?_ ?_ (.inr fun start heq => by cases heq) hiterations
  · rw [hafter]
    exact hgroups
  · rw [hafter]

end Constructors

theorem coursesBody (hs : s.LaidOut) (lengths : Nat → Nat) (id : Nat) (body : Body) :
    s.CoursesBody lengths id body := by
  induction body with
  | done => exact fun _ _ _ _ _ _ _ _ hinside hcourse => ⟨hcourse, hinside⟩
  | plain token role behind ih => exact ih.plain hs role
  | group opening closing opens closes inner behind hinner hbehind =>
    exact hinner.group hs opens closes hbehind
  | sequence length opening closing counts opens closes inner behind hinner hbehind =>
    exact hinner.sequence hs counts opens closes hbehind

theorem dueAt_of_outside (hs : s.LaidOut) (h : s.around p = ⟨[], [], none⟩) : s.DueAt p := by
  cases he : s.entries[p]? with
  | none => exact .inl (Array.getElem?_eq_none_iff.1 he)
  | some e =>
    have hgroups : (s.context p).groups = [] := congrArg Surroundings.groups h
    have hdraft : (s.context p).draft = none :=
      Option.map_eq_none_iff.1 (congrArg Surroundings.draft h)
    refine .inr ?_
    rw [isMessageStart_eq hs he, hdraft, hgroups]
    cases hclosing : e.token.isClosing with
    | false => rfl
    | true =>
      obtain ⟨kind, hrole, -⟩ := role_of_isClosing hclosing
      obtain ⟨⟨outer, hopen, -⟩, -⟩ := hs.closing p e kind he hrole
      rw [hgroups] at hopen
      cases hopen

theorem settle_of_dueAt (h : s.DueAt p) (hs : s.LaidOut) : s.settle p frames = ⟨p, frames⟩ := by
  rcases h with hsize | hstart
  · exact settle_of_size_le hsize
  · cases he : s.entries[p]? with
    | none => exact settle_of_size_le (Array.getElem?_eq_none_iff.1 he)
    | some e =>
      rw [isMessageStart_eq hs he] at hstart
      simp only [Bool.and_eq_true, Bool.not_eq_true'] at hstart
      exact settle_of_not_closing he hstart.1.2

/-- A message is read with the visits that it unfolds to. -/
theorem course_message (hs : s.LaidOut) (lengths : Nat → Nat) {m : Message} {rest : List Token}
    (h : s.tokens.drop id = m.tokens ++ rest) (hid : s.around id = ⟨[], [], none⟩) :
    s.Course lengths id (m.unfold lengths id) ⟨id + m.tokens.length, []⟩ := by
  have hafter := around_message h hid
  have hdue := dueAt_of_outside hs hafter
  rw [m.length_tokens, show id + (m.body.size + 2) = id + 1 + m.body.size + 1 by omega]
    at hafter hdue ⊢
  simp only [Message.tokens, List.cons_append, List.append_assoc, List.nil_append] at h
  have hfirst : s.around (id + 1) = ⟨[⟨true, false⟩], [], some id⟩ :=
    around_of_opening hid (getElem?_of_drop h) m.opens
  have hend : s.around (id + 1 + m.body.size) =
      ⟨[⟨true, false⟩], [], m.body.draft (id + 1) (some id)⟩ :=
    around_body (drop_succ_of_drop h) hfirst
  have hclose := drop_body (drop_succ_of_drop h)
  have ht := getElem?_of_drop hclose
  obtain ⟨hcourse, hinside⟩ := coursesBody hs lengths id m.body (id + 1) (some id) [] [] _
    (drop_succ_of_drop h) (by rw [hfirst]; simp) (by rw [hfirst]) (.inl rfl) .begin
  obtain ⟨e, he, hetoken⟩ :
      ∃ e, s.entries[id + 1 + m.body.size]? = some e ∧ e.token = m.closing := by
    rw [getElem?_tokens] at ht
    exact Option.map_eq_some_iff.1 ht
  have hclosing : e.token.isLength = false ∧ e.token.isClosing = true ∧
      e.token.closesSequence = false := by
    rw [Token.isLength_eq, Token.isClosing_eq, Token.closesSequence_eq, hetoken, m.closes]
    exact ⟨rfl, rfl, rfl⟩
  unfold Message.unfold
  cases hdraft : m.body.draft (id + 1) (some id) with
  | none =>
    rw [hdraft] at hcourse
    rw [Option.toList_none, List.append_nil, ← settle_of_dueAt hdue hs,
      ← settle_of_isClosing he hclosing.2.1 hclosing.2.2]
    exact hcourse
  | some start =>
    rw [hdraft] at hcourse hinside
    have hnone : (s.context (id + 1 + m.body.size + 1)).draft = none :=
      Option.map_eq_none_iff.1 (congrArg Surroundings.draft hafter)
    have hvisit := Course.visit_ends hs he
      (show (s.around (id + 1 + m.body.size)).draft = some start by rw [hend, hdraft])
      (.inl (by simp)) (.inl hnone) (hinside.imp_right fun hnot => hnot start rfl) hcourse
    rwa [advance, if_neg (by simp [hclosing.1]), if_neg (by simp [hclosing.2.2])] at hvisit

theorem exists_message (hs : s.LaidOut) (messages : List Message)
    (h : s.tokens.drop p = messages.flatMap Message.tokens) (hp : s.around p = ⟨[], [], none⟩)
    (hle : p ≤ id) (hstart : s.isMessageStart id = true) :
    ∃ m rest, s.tokens.drop id = Message.tokens m ++ rest ∧ s.around id = ⟨[], [], none⟩ ∧
      ∀ lengths, unfoldMessages lengths id p messages = m.unfold lengths id := by
  induction messages generalizing p with
  | nil =>
    have hsize : s.size ≤ p := by
      have := List.drop_eq_nil_iff.1 h
      rwa [length_tokens] at this
    have hlt := lt_size_of_isMessageStart hstart
    omega
  | cons m rest ih =>
    rw [List.flatMap_cons] at h
    by_cases hid : id = p
    · subst hid
      exact ⟨m, _, h, hp, fun lengths => by rw [unfoldMessages, if_pos rfl]⟩
    · have hlater : p + m.tokens.length ≤ id := by
        refine Nat.le_of_not_lt fun hlt => ?_
        have hgroups := groups_message h hp (Nat.lt_of_le_of_ne hle (Ne.symm hid)) hlt
        rw [isMessageStart_of_groups hs hgroups] at hstart
        cases hstart
      obtain ⟨found, behind, hfound, houtside, hunfold⟩ :=
        ih (drop_add_of_drop h) (around_message h hp) hlater
      refine ⟨found, behind, hfound, houtside, fun lengths => ?_⟩
      rw [unfoldMessages, if_neg hid, hunfold]

theorem eq_zero_of_flat (hroles : ∀ token ∈ s.tokens, token.role = .plain) (hle : p ≤ s.size)
    (hdraft : (s.context p).draft = none) : p = 0 := by
  refine Nat.eq_zero_of_not_pos fun hpos => ?_
  have hstart : (s.context p).draft.map FragmentDraft.start = some 0 :=
    congrArg Surroundings.draft (around_of_flat hroles hpos hle)
  rw [hdraft] at hstart
  cases hstart

theorem draft_of_isMessageStart (hs : s.LaidOut) (hstart : s.isMessageStart p = true) :
    p < s.size ∧ (s.context p).draft = none := by
  have hlt := lt_size_of_isMessageStart hstart
  obtain ⟨e, he⟩ := exists_entry_of_isMessageStart hstart
  rw [isMessageStart_eq hs he] at hstart
  simp only [Bool.and_eq_true, Option.isNone_iff_eq_none] at hstart
  exact ⟨hlt, hstart.1.1⟩

theorem course_flat (hs : s.LaidOut) (hroles : ∀ token ∈ s.tokens, token.role = .plain)
    (hpositive : 0 < s.size) :
    ∃ last, s.Course lengths 0 [0] last ∧ s.DueAt last.position ∧ 0 < last.position := by
  obtain ⟨last, hlast⟩ : ∃ last, last + 1 = s.size := ⟨s.size - 1, by omega⟩
  obtain ⟨e, he⟩ : ∃ e, s.entries[last]? = some e := exists_entry (by omega)
  have hrole : e.token.role = .plain :=
    hroles _ (List.mem_of_getElem? (by rw [getElem?_tokens, he]; rfl))
  have hflat : e.token.isLength = false ∧ e.token.isClosing = false ∧
      e.token.closesSequence = false := by
    rw [Token.isLength_eq, Token.isClosing_eq, Token.closesSequence_eq, hrole]
    exact ⟨rfl, rfl, rfl⟩
  have hdraft : (s.around last).draft.getD last = 0 := by
    by_cases hzero : last = 0
    · subst hzero
      rfl
    · rw [around_of_flat hroles (Nat.pos_of_ne_zero hzero) (by omega)]
      rfl
  have hbegun : s.Course lengths 0 [] ⟨(s.around last).draft.getD last, []⟩ := by
    rw [hdraft]
    exact .begin
  have hvisit := hbegun.visit_ends hs he rfl (.inr hflat.2.1) (.inr hlast) (.inl rfl)
  rw [advance, if_neg (by simp [hflat.1]), if_neg (by simp [hflat.2.2]), hdraft] at hvisit
  exact ⟨_, hvisit, .inl (by simp only; omega), Nat.zero_lt_succ _⟩

/-- A reader of any message visits what the message unfolds to, and then the next one is due. -/
theorem course_script (hs : s.LaidOut) (lengths : Nat → Nat) {script : Script}
    (h : script.tokens = s.tokens) (hstart : s.isMessageStart id = true) :
    ∃ last, s.Course lengths id (script.unfold lengths id) last ∧ s.DueAt last.position ∧
      id < last.position := by
  cases script with
  | bracketed messages =>
    obtain ⟨m, rest, hdrop, houtside, hunfold⟩ :=
      exists_message hs messages (p := 0) h.symm rfl (Nat.zero_le _) hstart
    rw [Script.unfold, hunfold]
    exact ⟨_, course_message hs lengths hdrop houtside,
      dueAt_of_outside hs (around_message hdrop houtside),
      Nat.lt_add_of_pos_right (Nat.zero_lt_succ _)⟩
  | flat tokens roles =>
    have hroles : ∀ token ∈ s.tokens, token.role = .plain := h ▸ roles
    obtain ⟨hlt, hdraft⟩ := draft_of_isMessageStart hs hstart
    obtain rfl := eq_zero_of_flat hroles (Nat.le_of_lt hlt) hdraft
    exact course_flat hs hroles hlt

end Simulation

end Schema

end FragmentPipe
