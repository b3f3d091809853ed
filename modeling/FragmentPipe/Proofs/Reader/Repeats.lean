import FragmentPipe.Proofs.Reader.Course

set_option autoImplicit false

namespace FragmentPipe

/-- The lengths read on the way depend on the fragment alone. -/
def Steady (counts lengths : Nat → Nat) (visited : List Nat) : Prop :=
  ∀ i cursor, visited[i]? = some cursor → lengths i = counts cursor

theorem Steady.front {counts lengths : Nat → Nat} {visited more : List Nat}
    (h : Steady counts lengths more) (hfront : visited <+: more) :
    Steady counts lengths visited := by
  obtain ⟨behind, rfl⟩ := hfront
  intro i cursor hcursor
  apply h i cursor
  rw [List.getElem?_append_left (List.getElem?_eq_some_iff.1 hcursor).1]
  exact hcursor

theorem repeat_extends {step : List Nat → List Nat} (hstep : ∀ visited, visited <+: step visited)
    (count : Nat) (visited : List Nat) : visited <+: Nat.repeat step count visited := by
  induction count with
  | zero => exact List.prefix_refl _
  | succ count ih => exact ih.trans (hstep _)

theorem Body.unfold_extends (lengths : Nat → Nat) (body : Body) (p : Nat) (draft : Option Nat)
    (visited : List Nat) : visited <+: body.unfold lengths p draft visited := by
  induction body generalizing p draft visited with
  | done => exact List.prefix_refl _
  | plain token role behind ih => exact ih _ _ _
  | group opening closing opens closes inner behind hinner hbehind =>
    exact (hinner _ _ _).trans (hbehind _ _ _)
  | sequence length opening closing counts opens closes inner behind hinner hbehind =>
    have hiteration : ∀ visited, visited <+: inner.iterate lengths (p + 1) visited :=
      fun visited => (hinner _ _ visited).trans (List.prefix_append _ _)
    have hiterations := repeat_extends hiteration (lengths visited.length)
      (visited ++ [draft.getD p])
    exact ((List.prefix_append _ _).trans hiterations).trans (hbehind _ _ _)

theorem Body.iterate_extends (lengths : Nat → Nat) (body : Body) (p : Nat) (visited : List Nat) :
    visited <+: body.iterate lengths p visited :=
  (body.unfold_extends lengths _ _ visited).trans (List.prefix_append _ _)

namespace Schema

def inFront (s : Schema) (body : Nat) : Nat := (s.around (body - 1)).draft.getD (body - 1)

def runs (s : Schema) (counts : Nat → Nat) : List Nat → Nat
  | [] => 1
  | body :: outer => counts (s.inFront body) * s.runs counts outer

def InMessage (s : Schema) (id position : Nat) : Prop :=
  id ≤ position ∧ ∀ other : Nat, id < other → other ≤ position → s.isMessageStart other = false

section Counts

variable {s : Schema} {counts lengths : Nat → Nat} {p cursor : Nat} {token : Token}
  {draft : Option Nat} {visited : List Nat}

theorem runs_append (inner outer : List Nat) :
    s.runs counts (inner ++ outer) = s.runs counts inner * s.runs counts outer := by
  induction inner with
  | nil => rw [List.nil_append, runs, Nat.one_mul]
  | cons body rest ih => rw [List.cons_append, runs, runs, ih, Nat.mul_assoc]

def begun (s : Schema) (counts : Nat → Nat) (first stop cursor : Nat) : Nat :=
  if first ≤ cursor ∧ cursor < stop ∧ (s.fragment? cursor).isSome = true then
    s.runs counts (s.context cursor).bodies
  else 0

theorem begun_self : s.begun counts p p cursor = 0 := by
  unfold begun
  rw [if_neg (by omega)]

theorem begun_append {first middle stop : Nat} (h : first ≤ middle) (h' : middle ≤ stop) :
    s.begun counts first stop cursor =
      s.begun counts first middle cursor + s.begun counts middle stop cursor := by
  unfold begun
  by_cases hbegins : (s.fragment? cursor).isSome = true
  · by_cases hfirst : first ≤ cursor <;> by_cases hmiddle : cursor < middle <;>
      by_cases hstop : cursor < stop <;> simp [*] <;> omega
  · simp [hbegins]

theorem begun_token (hs : s.LaidOut) (ht : s.tokens[p]? = some token) :
    s.begun counts p (p + 1) cursor =
      if cursor = p ∧ (s.around p).draft = none ∧ token.isClosing = false then
        s.runs counts (s.context p).bodies
      else 0 := by
  rw [getElem?_tokens] at ht
  obtain ⟨e, he, rfl⟩ := Option.map_eq_some_iff.1 ht
  unfold begun
  by_cases hcursor : cursor = p
  · subst hcursor
    have hnone : (s.around cursor).draft = none ↔ (s.context cursor).draft = none :=
      Option.map_eq_none_iff
    simp only [fragment?_isSome_iff hs he, hnone, Nat.le_refl, Nat.lt_add_one, true_and]
  · rw [if_neg (by omega), if_neg (fun h => hcursor h.1)]

/-- The fragment that a token belongs to is new in front of it, or went on already. -/
theorem count_held (hs : s.LaidOut) (ht : s.tokens[p]? = some token)
    (hopen : token.isClosing = false) (hdraft : (s.around p).draft = draft) :
    s.runs counts (s.context p).bodies * (visited ++ [draft.getD p]).count cursor =
      s.runs counts (s.context p).bodies * (visited ++ draft.toList).count cursor +
        s.begun counts p (p + 1) cursor := by
  rw [begun_token hs ht, hdraft]
  cases draft with
  | some start => simp
  | none =>
    by_cases hcursor : cursor = p
    · subst hcursor
      simp [hopen, Nat.mul_add]
    · simp [hcursor, Ne.symm hcursor]

theorem begun_closing (hs : s.LaidOut) (ht : s.tokens[p]? = some token)
    (hclosing : token.isClosing = true) : s.begun counts p (p + 1) cursor = 0 := by
  rw [begun_token hs ht, if_neg (by simp [hclosing])]

theorem begun_eq_zero {outer : List Nat} {first stop : Nat} (hzero : s.runs counts outer = 0)
    (hinside : ∀ q, first ≤ q → q < stop → outer <:+ (s.context q).bodies) :
    s.begun counts first stop cursor = 0 := by
  unfold begun
  by_cases hin : first ≤ cursor ∧ cursor < stop ∧ (s.fragment? cursor).isSome = true
  · obtain ⟨inner, hinner⟩ := hinside cursor hin.1 hin.2.1
    rw [if_pos hin, ← hinner, runs_append, hzero, Nat.mul_zero]
  · rw [if_neg hin]

theorem count_iterations {step : List Nat → List Nat} {weight added : Nat}
    (hextends : ∀ visited, visited <+: step visited)
    (hstep : ∀ visited, Steady counts lengths (step visited) →
      weight * (step visited).count cursor = weight * visited.count cursor + added)
    (count : Nat) (h : Steady counts lengths (Nat.repeat step count visited)) :
    weight * (Nat.repeat step count visited).count cursor =
      weight * visited.count cursor + count * added := by
  induction count with
  | zero => rw [Nat.repeat, Nat.zero_mul, Nat.add_zero]
  | succ count ih =>
    have hbefore := ih (h.front (hextends _))
    have hlast := hstep _ h
    rw [Nat.repeat, hlast, hbefore, Nat.add_mul, Nat.one_mul, Nat.add_assoc]

/-- Where an iteration adds its visits weighed by their number, all of them add them once. -/
theorem count_loop {step : List Nat → List Nat} {count weight added : Nat}
    (hextends : ∀ visited, visited <+: step visited)
    (hstep : ∀ visited, Steady counts lengths (step visited) →
      count * weight * (step visited).count cursor =
        count * weight * visited.count cursor + added)
    (hzero : count = 0 → added = 0) (h : Steady counts lengths (Nat.repeat step count visited)) :
    weight * (Nat.repeat step count visited).count cursor =
      weight * visited.count cursor + added := by
  by_cases hpos : 0 < count
  · have hall := count_iterations hextends hstep count h
    rw [Nat.mul_assoc, Nat.mul_assoc, ← Nat.mul_add] at hall
    exact Nat.eq_of_mul_eq_mul_left hpos hall
  · have hnone : count = 0 := Nat.eq_zero_of_not_pos hpos
    rw [hzero hnone, hnone, Nat.repeat, Nat.add_zero]

/-- The visits over a body are those in front of it and, to every fragment that begins in it, as
many as the loops around the fragment run. Both sides are weighed by the loops around the body. -/
def CountsBody (s : Schema) (counts lengths : Nat → Nat) (cursor : Nat) (body : Body) : Prop :=
  ∀ (p : Nat) (draft : Option Nat) (visited : List Nat) (rest : List Token),
    s.tokens.drop p = body.tokens ++ rest → (s.around p).draft = draft →
      Steady counts lengths (body.unfold lengths p draft visited) →
        s.runs counts (s.context p).bodies *
            (body.unfold lengths p draft visited ++ (body.draft p draft).toList).count cursor =
          s.runs counts (s.context p).bodies * (visited ++ draft.toList).count cursor +
            s.begun counts p (p + body.size) cursor

section Constructors

variable {inner behind : Body} {rest : List Token}

theorem CountsBody.plain (hs : s.LaidOut) (role : token.role = .plain)
    (h : s.CountsBody counts lengths cursor behind) :
    s.CountsBody counts lengths cursor (.plain token role behind) := by
  intro p draft visited rest hdrop hdraft hsteady
  have ht := getElem?_of_drop hdrop
  have hopen : token.isClosing = false := Token.isClosing_of_role role
  have hnext := around_of_plain (s := s) rfl ht role
  rw [hdraft] at hnext
  have hbodies : (s.context (p + 1)).bodies = (s.context p).bodies :=
    congrArg Surroundings.bodies hnext
  have hrest := h _ _ _ _ (drop_succ_of_drop hdrop) (congrArg Surroundings.draft hnext) hsteady
  rw [hbodies] at hrest
  rw [Body.size_plain, show p + (behind.size + 1) = p + 1 + behind.size by omega,
    begun_append (Nat.le_succ p) (Nat.le_add_right _ _), ← Nat.add_assoc,
    ← count_held hs ht hopen hdraft]
  exact hrest

theorem CountsBody.group (hs : s.LaidOut) {opening closing : Token}
    (opens : opening.role = .opening ⟨false, false⟩)
    (closes : closing.role = .closing ⟨false, false⟩)
    (hinner : s.CountsBody counts lengths cursor inner)
    (hbehind : s.CountsBody counts lengths cursor behind) :
    s.CountsBody counts lengths cursor (.group opening closing opens closes inner behind) := by
  intro p draft visited rest h hdraft hsteady
  simp only [Body.tokens, List.cons_append, List.append_assoc] at h
  have ht := getElem?_of_drop h
  have hopen : opening.isClosing = false := Token.isClosing_of_role opens
  have hclosing : closing.isClosing = true := Token.isClosing_of_role closes
  obtain ⟨hnext, hclose, hdrop, hafter⟩ := around_group h opens closes
  rw [hdraft] at hnext hafter
  have hbodies : (s.context (p + 1)).bodies = (s.context p).bodies :=
    congrArg Surroundings.bodies hnext
  have hbodies' : (s.context (p + 1 + inner.size + 1)).bodies = (s.context p).bodies :=
    congrArg Surroundings.bodies hafter
  have hinside := hinner _ _ _ _ (drop_succ_of_drop h) (congrArg Surroundings.draft hnext)
    (hsteady.front (Body.unfold_extends lengths behind _ _ _))
  have hrest := hbehind _ _ _ _ hdrop (congrArg Surroundings.draft hafter) hsteady
  rw [hbodies] at hinside
  rw [hbodies', hinside] at hrest
  rw [Body.size_group,
    show p + (inner.size + behind.size + 2) = p + 1 + inner.size + 1 + behind.size by omega,
    begun_append (show p ≤ p + 1 + inner.size + 1 by omega) (Nat.le_add_right _ _),
    begun_append (show p ≤ p + 1 + inner.size by omega) (Nat.le_succ _),
    begun_append (Nat.le_succ p) (Nat.le_add_right _ _),
    begun_closing hs hclose hclosing, Nat.add_zero, ← Nat.add_assoc, ← Nat.add_assoc,
    ← count_held hs ht hopen hdraft]
  exact hrest

theorem CountsBody.iterate (hs : s.LaidOut) {length opening closing : Token}
    (h : s.tokens.drop p = length :: opening :: (inner.tokens ++ closing :: rest))
    (count : length.role = .length) (opens : opening.role = .opening ⟨false, true⟩)
    (hinner : s.CountsBody counts lengths cursor inner)
    (hsteady : Steady counts lengths (inner.iterate lengths (p + 1) visited)) :
    s.runs counts ((p + 1) :: (s.context p).bodies) *
        (inner.iterate lengths (p + 1) visited).count cursor =
      s.runs counts ((p + 1) :: (s.context p).bodies) * visited.count cursor +
        s.begun counts (p + 1) (p + 2 + inner.size) cursor := by
  have hopening := drop_succ_of_drop h
  have hlength := around_of_length (s := s) rfl (getElem?_of_drop h) count
  have hfirst := around_of_opening hlength (getElem?_of_drop hopening) opens
  have hloop : (s.context (p + 1)).bodies = (p + 1) :: (s.context p).bodies :=
    congrArg Surroundings.bodies hlength
  have hloop' : (s.context (p + 2)).bodies = (p + 1) :: (s.context p).bodies :=
    congrArg Surroundings.bodies hfirst
  have hinside := hinner _ _ _ _ (drop_succ_of_drop hopening) (congrArg Surroundings.draft hfirst)
    (hsteady.front (List.prefix_append _ _))
  have hheld : s.runs counts (s.context (p + 1)).bodies * (visited ++ [p + 1]).count cursor =
      s.runs counts (s.context (p + 1)).bodies * (visited ++ []).count cursor +
        s.begun counts (p + 1) (p + 2) cursor :=
    count_held hs (getElem?_of_drop hopening) (Token.isClosing_of_role opens)
      (congrArg Surroundings.draft hlength)
  rw [hloop, List.append_nil] at hheld
  rw [hloop', Option.toList_some] at hinside
  rw [Body.iterate, begun_append (Nat.le_succ (p + 1)) (Nat.le_add_right _ _), ← Nat.add_assoc,
    ← hheld]
  exact hinside

theorem CountsBody.sequence (hs : s.LaidOut) {length opening closing : Token}
    (count : length.role = .length) (opens : opening.role = .opening ⟨false, true⟩)
    (closes : closing.role = .closing ⟨false, true⟩)
    (hinner : s.CountsBody counts lengths cursor inner)
    (hbehind : s.CountsBody counts lengths cursor behind) :
    s.CountsBody counts lengths cursor
      (.sequence length opening closing count opens closes inner behind) := by
  intro p draft visited rest h hdraft hsteady
  simp only [Body.tokens, List.cons_append, List.append_assoc] at h
  have ht := getElem?_of_drop h
  have hopen : length.isClosing = false := Token.isClosing_of_role count
  have hclosing : closing.isClosing = true := Token.isClosing_of_role closes
  obtain ⟨hlength, hfirst, -, hclose, hdrop, hafter⟩ := around_sequence h count opens closes
  have hloop : (s.context (p + 1)).bodies = (p + 1) :: (s.context p).bodies :=
    congrArg Surroundings.bodies hlength
  have hloop' : (s.context (p + 2)).bodies = (p + 1) :: (s.context p).bodies :=
    congrArg Surroundings.bodies hfirst
  have hbodies : (s.context (p + 2 + inner.size + 1)).bodies = (s.context p).bodies :=
    congrArg Surroundings.bodies hafter
  have hsteady' : Steady counts lengths (Nat.repeat (inner.iterate lengths (p + 1))
      (lengths visited.length) (visited ++ [draft.getD p])) :=
    hsteady.front (Body.unfold_extends lengths behind _ _ _)
  have hcount : lengths visited.length = counts (draft.getD p) := by
    apply hsteady'.front (repeat_extends (inner.iterate_extends lengths _) _ _) _ _
    rw [List.getElem?_concat_length]
  have hweight : s.runs counts ((p + 1) :: (s.context p).bodies) =
      lengths visited.length * s.runs counts (s.context p).bodies := by
    rw [runs, inFront, Nat.add_sub_cancel, hdraft, hcount]
  have hnone : lengths visited.length = 0 →
      s.begun counts (p + 1) (p + 2 + inner.size) cursor = 0 := by
    intro hzero
    have hnever : s.runs counts ((p + 1) :: (s.context p).bodies) = 0 := by
      rw [hweight, hzero, Nat.zero_mul]
    apply begun_eq_zero hnever
    intro q hpq hq
    by_cases hq1 : q = p + 1
    · subst hq1
      exact hloop ▸ List.suffix_refl _
    · have hin := encloses_body (drop_succ_of_drop (drop_succ_of_drop h)) (q := q) (by omega)
        (by omega)
      exact hloop' ▸ hin.bodies
  have hloops := count_loop (inner.iterate_extends lengths _)
    (fun _ hiterated => hweight ▸ hinner.iterate hs h count opens hiterated) hnone hsteady'
  have hrest := hbehind _ _ _ _ hdrop (congrArg Surroundings.draft hafter) hsteady
  rw [hbodies, Option.toList_none, List.append_nil] at hrest
  rw [Body.size_sequence,
    show p + (inner.size + behind.size + 3) = p + 2 + inner.size + 1 + behind.size by omega,
    begun_append (show p ≤ p + 2 + inner.size + 1 by omega) (Nat.le_add_right _ _),
    begun_append (show p ≤ p + 2 + inner.size by omega) (Nat.le_succ _),
    begun_append (Nat.le_succ p) (show p + 1 ≤ p + 2 + inner.size by omega),
    begun_closing hs hclose hclosing, Nat.add_zero, ← Nat.add_assoc, ← Nat.add_assoc,
    ← count_held hs ht hopen hdraft, ← hloops]
  exact hrest

end Constructors

theorem countsBody (hs : s.LaidOut) (counts lengths : Nat → Nat) (cursor : Nat) (body : Body) :
    s.CountsBody counts lengths cursor body := by
  induction body with
  | done =>
    intro p draft visited rest _ _ _
    rw [Body.size_done, Nat.add_zero, begun_self, Body.unfold, Body.draft, Nat.add_zero]
  | plain token role behind ih => exact ih.plain hs role
  | group opening closing opens closes inner behind hinner hbehind =>
    exact hinner.group hs opens closes hbehind
  | sequence length opening closing count opens closes inner behind hinner hbehind =>
    exact hinner.sequence hs count opens closes hbehind

theorem count_message (hs : s.LaidOut) {id : Nat} {m : Message} {rest : List Token}
    (h : s.tokens.drop id = m.tokens ++ rest) (hid : s.around id = ⟨[], [], none⟩)
    (hsteady : Steady counts lengths (m.unfold lengths id)) :
    (m.unfold lengths id).count cursor = s.begun counts id (id + m.tokens.length) cursor := by
  have houtside : (s.context id).bodies = [] := congrArg Surroundings.bodies hid
  rw [m.length_tokens, show id + (m.body.size + 2) = id + 1 + m.body.size + 1 by omega]
  simp only [Message.tokens, List.cons_append, List.append_assoc, List.nil_append] at h
  have ht := getElem?_of_drop h
  have hopen : m.opening.isClosing = false := Token.isClosing_of_role m.opens
  have hclosing : m.closing.isClosing = true := Token.isClosing_of_role m.closes
  have hfirst := around_of_opening hid ht m.opens
  have hbodies : (s.context (id + 1)).bodies = [] := congrArg Surroundings.bodies hfirst
  have hclose := getElem?_of_drop (drop_body (drop_succ_of_drop h))
  have hbody : s.runs counts (s.context (id + 1)).bodies * (m.unfold lengths id).count cursor =
      s.runs counts (s.context (id + 1)).bodies * [id].count cursor +
        s.begun counts (id + 1) (id + 1 + m.body.size) cursor :=
    countsBody hs counts lengths cursor m.body _ _ _ _ (drop_succ_of_drop h)
      (congrArg Surroundings.draft hfirst) (hsteady.front (List.prefix_append _ _))
  have hheld : s.runs counts (s.context id).bodies * ([] ++ [id]).count cursor =
      s.runs counts (s.context id).bodies * ([] ++ []).count cursor +
        s.begun counts id (id + 1) cursor :=
    count_held hs ht hopen (congrArg Surroundings.draft hid)
  rw [houtside, runs, Nat.one_mul, Nat.one_mul, List.nil_append, List.nil_append, List.count_nil,
    Nat.zero_add] at hheld
  rw [hbodies, runs, Nat.one_mul, Nat.one_mul, hheld] at hbody
  rw [hbody, begun_append (show id ≤ id + 1 + m.body.size by omega) (Nat.le_succ _),
    begun_append (show id ≤ id + 1 by omega) (Nat.le_add_right _ _),
    begun_closing hs hclose hclosing]
  rfl

/-- Where the lengths are steady, a message visits each of its fragments as often as the loops
around the fragment run together. -/
theorem count_script (hs : s.LaidOut) {id : Nat} {script : Script} (h : script.tokens = s.tokens)
    (hstart : s.isMessageStart id = true)
    (hsteady : Steady counts lengths (script.unfold lengths id))
    (hcursor : (s.fragment? cursor).isSome = true) (hin : s.InMessage id cursor) :
    (script.unfold lengths id).count cursor = s.runs counts (s.context cursor).bodies := by
  obtain ⟨hle, hnone⟩ := hin
  obtain ⟨e, he⟩ : ∃ e, s.entries[cursor]? = some e := by
    obtain ⟨f, hf⟩ := Option.isSome_iff_exists.1 hcursor
    obtain ⟨hposition, e, -, he, -⟩ := fragment?_eq_some hf
    exact ⟨e, Int.ofNat.inj hposition ▸ he⟩
  have hsize := lt_size_of_getElem? he
  cases script with
  | bracketed messages =>
    obtain ⟨m, rest, hdrop, houtside, hunfold⟩ :=
      exists_message hs messages (p := 0) h.symm rfl (Nat.zero_le _) hstart
    have hlt : cursor < id + m.tokens.length := by
      apply Nat.lt_of_not_le
      intro hle'
      rcases dueAt_of_outside hs (around_message hdrop houtside) with hend | hnext
      · omega
      · have hpos : 0 < m.tokens.length := Nat.zero_lt_succ _
        rw [hnone _ (Nat.lt_add_of_pos_right hpos) hle'] at hnext
        cases hnext
    rw [Script.unfold, hunfold] at hsteady ⊢
    rw [count_message hs hdrop houtside hsteady, begun, if_pos ⟨hle, hlt, hcursor⟩]
  | flat tokens roles =>
    have hroles : ∀ token ∈ s.tokens, token.role = .plain := h ▸ roles
    have hdraft := ((fragment?_isSome_iff hs he).1 hcursor).1
    obtain rfl := eq_zero_of_flat hroles (Nat.le_of_lt hsize) hdraft
    rfl

end Counts

end Schema

end FragmentPipe
