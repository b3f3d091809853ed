import FragmentPipe.Proofs.Script.Fragments
import FragmentPipe.Proofs.Script.Grammar

set_option autoImplicit false

namespace FragmentPipe

/-- Where the fragment began that goes on behind the body, given the one that goes on in front. -/
def Body.draft : Body → Nat → Option Nat → Option Nat
  | .done, _, draft => draft
  | .plain _ _ rest, position, draft => rest.draft (position + 1) (some (draft.getD position))
  | .group _ _ _ _ inner rest, position, draft =>
    rest.draft (position + 1 + inner.size + 1)
      (inner.draft (position + 1) (some (draft.getD position)))
  | .sequence _ _ _ _ _ _ inner rest, position, _ =>
    rest.draft (position + 2 + inner.size + 1) none

/-- The visits so far, and behind them those of the fragments that end inside the body. -/
def Body.unfold (lengths : Nat → Nat) : Body → Nat → Option Nat → List Nat → List Nat
  | .done, _, _, visited => visited
  | .plain _ _ rest, position, draft, visited =>
    rest.unfold lengths (position + 1) (some (draft.getD position)) visited
  | .group _ _ _ _ inner rest, position, draft, visited =>
    rest.unfold lengths (position + 1 + inner.size + 1)
      (inner.draft (position + 1) (some (draft.getD position)))
      (inner.unfold lengths (position + 1) (some (draft.getD position)) visited)
  | .sequence _ _ _ _ _ _ inner rest, position, draft, visited =>
    rest.unfold lengths (position + 2 + inner.size + 1) none
      (Nat.repeat
        (fun visited => inner.unfold lengths (position + 2) (some (position + 1)) visited ++
          (inner.draft (position + 2) (some (position + 1))).toList)
        (lengths visited.length) (visited ++ [draft.getD position]))

def Body.iterate (lengths : Nat → Nat) (body : Body) (position : Nat) (visited : List Nat) :
    List Nat :=
  body.unfold lengths (position + 1) (some position) visited ++
    (body.draft (position + 1) (some position)).toList

def Message.unfold (lengths : Nat → Nat) (m : Message) (start : Nat) : List Nat :=
  m.body.unfold lengths (start + 1) (some start) [] ++
    (m.body.draft (start + 1) (some start)).toList

def unfoldMessages (lengths : Nat → Nat) (id : Nat) : Nat → List Message → List Nat
  | _, [] => []
  | position, m :: rest =>
    if id = position then m.unfold lengths position
    else unfoldMessages lengths id (position + m.tokens.length) rest

/-- The unfolding of the message that begins at `id`; a script without brackets is one fragment. -/
def Script.unfold (lengths : Nat → Nat) (id : Nat) : Script → List Nat
  | .flat _ _ => [0]
  | .bracketed messages => unfoldMessages lengths id 0 messages

structure Surroundings where
  groups : List GroupKind
  bodies : List Nat
  draft : Option Nat

structure Surroundings.Encloses (c d : Surroundings) : Prop where
  groups : c.groups.length ≤ d.groups.length
  bodies : c.bodies <:+ d.bodies

theorem Surroundings.Encloses.refl (c : Surroundings) : c.Encloses c :=
  ⟨Nat.le_refl _, List.suffix_refl _⟩

theorem Surroundings.Encloses.trans {c d e : Surroundings} (h : c.Encloses d) (h' : d.Encloses e) :
    c.Encloses e :=
  ⟨Nat.le_trans h.groups h'.groups, h.bodies.trans h'.bodies⟩

namespace Schema

def around (s : Schema) (position : Nat) : Surroundings :=
  ⟨(s.context position).groups, (s.context position).bodies,
    (s.context position).draft.map FragmentDraft.start⟩

section

variable {s : Schema} {p : Nat} {token : Token} {c : Surroundings}

theorem context_succ_of_tokens (h : s.tokens[p]? = some token) :
    s.context (p + 1) = (s.context p).after s.templateOffset p token :=
  contextAt_succ h

theorem start_of_holder (h : token.isClosing = false) :
    ((s.context p).holder s.templateOffset p token).map FragmentDraft.start =
      some (((s.context p).draft.map FragmentDraft.start).getD p) := by
  cases hd : (s.context p).draft with
  | some draft =>
    rw [Context.holder_of_some _ _ _ _ hd]
    rfl
  | none =>
    rw [Context.holder_of_none _ _ _ _ hd, h]
    rfl

theorem around_of_plain (hc : s.around p = c) (h : s.tokens[p]? = some token)
    (hr : token.role = .plain) : s.around (p + 1) = { c with draft := some (c.draft.getD p) } := by
  have hopen : token.isClosing = false := Token.isClosing_of_role hr
  have hstart := start_of_holder (s := s) (p := p) hopen
  subst hc
  unfold around
  rw [context_succ_of_tokens h, Context.after_of_plain _ _ _ _ hr]
  simp only [Option.map_map, ← hstart]
  rfl

theorem around_of_opening {kind : GroupKind} (hc : s.around p = c) (h : s.tokens[p]? = some token)
    (hr : token.role = .opening kind) :
    s.around (p + 1) = { c with groups := kind :: c.groups, draft := some (c.draft.getD p) } := by
  have hopen : token.isClosing = false := Token.isClosing_of_role hr
  have hstart := start_of_holder (s := s) (p := p) hopen
  subst hc
  unfold around
  rw [context_succ_of_tokens h, Context.after_of_opening _ _ _ _ hr]
  simp only [Option.map_map, ← hstart]
  rfl

theorem around_of_length (hc : s.around p = c) (h : s.tokens[p]? = some token)
    (hr : token.role = .length) :
    s.around (p + 1) = { c with bodies := (p + 1) :: c.bodies, draft := none } := by
  subst hc
  unfold around
  rw [context_succ_of_tokens h, Context.after_of_length _ _ _ _ hr]
  rfl

theorem around_of_closing {kind : GroupKind} (hc : s.around p = c) (h : s.tokens[p]? = some token)
    (hr : token.role = .closing kind) :
    s.around (p + 1) =
      { groups := c.groups.tail
        bodies := if kind.sequence then c.bodies.tail else c.bodies
        draft := if kind.sequence || kind.template then none else c.draft } := by
  subst hc
  unfold around
  rw [context_succ_of_tokens h, Context.after_of_closing _ _ _ _ hr]
  simp only
  congr 1
  split
  · rfl
  · have hclosing : token.isClosing = true := Token.isClosing_of_role hr
    cases hd : (s.context p).draft with
    | some draft =>
      rw [Context.holder_of_some _ _ _ _ hd]
      rfl
    | none =>
      rw [Context.holder_of_none _ _ _ _ hd, hclosing]
      rfl

end

section

variable {s : Schema} {c : Surroundings} {rest : List Token}

/-- Behind a body the same groups and sequences are open as in front of it. -/
theorem around_body {body : Body} {p : Nat} (h : s.tokens.drop p = body.tokens ++ rest)
    (hc : s.around p = c) :
    s.around (p + body.size) = { c with draft := body.draft p c.draft } := by
  induction body generalizing p c rest with
  | done => exact hc
  | plain token role behind ih =>
    have hnext := around_of_plain hc (getElem?_of_drop h) role
    have hbody := ih (drop_succ_of_drop h) hnext
    rw [Body.size_plain, show p + (behind.size + 1) = p + 1 + behind.size by omega]
    exact hbody
  | group opening closing opens closes inner behind hinner hbehind =>
    simp only [Body.tokens, List.cons_append, List.append_assoc] at h
    have hopen := around_of_opening hc (getElem?_of_drop h) opens
    have hinside := hinner (drop_succ_of_drop h) hopen
    have hclose := drop_body (drop_succ_of_drop h)
    have hafter := around_of_closing hinside (getElem?_of_drop hclose) closes
    have hbody := hbehind (drop_succ_of_drop hclose) hafter
    rw [Body.size_group,
      show p + (inner.size + behind.size + 2) = p + 1 + inner.size + 1 + behind.size by omega]
    exact hbody
  | sequence length opening closing counts opens closes inner behind hinner hbehind =>
    simp only [Body.tokens, List.cons_append, List.append_assoc] at h
    have hlength := around_of_length hc (getElem?_of_drop h) counts
    have hopening := drop_succ_of_drop h
    have hopen := around_of_opening hlength (getElem?_of_drop hopening) opens
    have hinside := hinner (drop_succ_of_drop hopening) hopen
    have hclose := drop_body (drop_succ_of_drop hopening)
    have hafter := around_of_closing hinside (getElem?_of_drop hclose) closes
    have hbody := hbehind (drop_succ_of_drop hclose) hafter
    rw [Body.size_sequence,
      show p + (inner.size + behind.size + 3) = p + 1 + 1 + inner.size + 1 + behind.size by omega]
    exact hbody

theorem around_group {p : Nat} {opening closing : Token} {inner : Body}
    (h : s.tokens.drop p = opening :: (inner.tokens ++ closing :: rest))
    (opens : opening.role = .opening ⟨false, false⟩)
    (closes : closing.role = .closing ⟨false, false⟩) :
    s.around (p + 1) = ⟨⟨false, false⟩ :: (s.around p).groups, (s.around p).bodies,
        some ((s.around p).draft.getD p)⟩ ∧
      s.tokens[p + 1 + inner.size]? = some closing ∧
      s.tokens.drop (p + 1 + inner.size + 1) = rest ∧
      s.around (p + 1 + inner.size + 1) = ⟨(s.around p).groups, (s.around p).bodies,
        inner.draft (p + 1) (some ((s.around p).draft.getD p))⟩ := by
  have hopen := around_of_opening (s := s) rfl (getElem?_of_drop h) opens
  have hinside := around_body (drop_succ_of_drop h) hopen
  have hclose := drop_body (drop_succ_of_drop h)
  have hafter := around_of_closing hinside (getElem?_of_drop hclose) closes
  exact ⟨hopen, getElem?_of_drop hclose, drop_succ_of_drop hclose, hafter⟩

/-- The surroundings of the parts of a sequence. Its body is open from behind the length on. -/
theorem around_sequence {p : Nat} {length opening closing : Token} {inner : Body}
    (h : s.tokens.drop p = length :: opening :: (inner.tokens ++ closing :: rest))
    (counts : length.role = .length) (opens : opening.role = .opening ⟨false, true⟩)
    (closes : closing.role = .closing ⟨false, true⟩) :
    s.around (p + 1) = ⟨(s.around p).groups, (p + 1) :: (s.around p).bodies, none⟩ ∧
      s.around (p + 2) = ⟨⟨false, true⟩ :: (s.around p).groups, (p + 1) :: (s.around p).bodies,
        some (p + 1)⟩ ∧
      s.around (p + 2 + inner.size) = ⟨⟨false, true⟩ :: (s.around p).groups,
        (p + 1) :: (s.around p).bodies, inner.draft (p + 2) (some (p + 1))⟩ ∧
      s.tokens[p + 2 + inner.size]? = some closing ∧
      s.tokens.drop (p + 2 + inner.size + 1) = rest ∧
      s.around (p + 2 + inner.size + 1) = ⟨(s.around p).groups, (s.around p).bodies, none⟩ := by
  have hlength := around_of_length (s := s) rfl (getElem?_of_drop h) counts
  have hopening := drop_succ_of_drop h
  have hopen := around_of_opening hlength (getElem?_of_drop hopening) opens
  have hinside := around_body (drop_succ_of_drop hopening) hopen
  have hclose := drop_body (drop_succ_of_drop hopening)
  have hafter := around_of_closing hinside (getElem?_of_drop hclose) closes
  exact ⟨hlength, hopen, hinside, getElem?_of_drop hclose, drop_succ_of_drop hclose, hafter⟩

theorem encloses_body {body : Body} {p q : Nat} (h : s.tokens.drop p = body.tokens ++ rest)
    (hle : p ≤ q) (hq : q ≤ p + body.size) : (s.around p).Encloses (s.around q) := by
  induction body generalizing p rest with
  | done =>
    obtain rfl : q = p := Nat.le_antisymm hq hle
    exact .refl _
  | plain token role behind ih =>
    rw [Body.size_plain] at hq
    rcases Nat.eq_or_lt_of_le hle with rfl | hlt
    · exact .refl _
    · have hnext : (s.around p).Encloses (s.around (p + 1)) := by
        rw [around_of_plain (s := s) rfl (getElem?_of_drop h) role]
        exact ⟨Nat.le_refl _, List.suffix_refl _⟩
      exact hnext.trans (ih (drop_succ_of_drop h) hlt (by omega))
  | group opening closing opens closes inner behind hinner hbehind =>
    simp only [Body.tokens, List.cons_append, List.append_assoc] at h
    rw [Body.size_group] at hq
    obtain ⟨hopen, -, hdrop, hafter⟩ := around_group h opens closes
    rcases Nat.eq_or_lt_of_le hle with rfl | hlt
    · exact .refl _
    by_cases hin : q ≤ p + 1 + inner.size
    · have hfirst : (s.around p).Encloses (s.around (p + 1)) := by
        rw [hopen]
        exact ⟨Nat.le_succ _, List.suffix_refl _⟩
      exact hfirst.trans (hinner (drop_succ_of_drop h) hlt hin)
    · have hlast : (s.around p).Encloses (s.around (p + 1 + inner.size + 1)) := by
        rw [hafter]
        exact ⟨Nat.le_refl _, List.suffix_refl _⟩
      exact hlast.trans (hbehind hdrop (by omega) (by omega))
  | sequence length opening closing counts opens closes inner behind hinner hbehind =>
    simp only [Body.tokens, List.cons_append, List.append_assoc] at h
    rw [Body.size_sequence] at hq
    obtain ⟨hlength, hopen, -, -, hdrop, hafter⟩ := around_sequence h counts opens closes
    rcases Nat.eq_or_lt_of_le hle with rfl | hlt
    · exact .refl _
    rcases Nat.eq_or_lt_of_le hlt with rfl | hbody
    · rw [Nat.succ_eq_add_one, hlength]
      exact ⟨Nat.le_refl _, List.suffix_cons _ _⟩
    by_cases hin : q ≤ p + 2 + inner.size
    · have hfirst : (s.around p).Encloses (s.around (p + 2)) := by
        rw [hopen]
        exact ⟨Nat.le_succ _, List.suffix_cons _ _⟩
      exact hfirst.trans (hinner (drop_succ_of_drop (drop_succ_of_drop h)) hbody hin)
    · have hlast : (s.around p).Encloses (s.around (p + 2 + inner.size + 1)) := by
        rw [hafter]
        exact ⟨Nat.le_refl _, List.suffix_refl _⟩
      exact hlast.trans (hbehind hdrop (by omega) (by omega))

theorem sequenceEnd_of_tree (hs : s.LaidOut) {p : Nat} {e : Entry} (he : s.entries[p]? = some e)
    (hrole : e.token.role = .length) {stop : Nat} (hstop : p + 1 < stop)
    (hbodies : (s.around stop).bodies.length = (s.around p).bodies.length)
    (hopen : ∀ q, p < q → q < stop → (s.around p).bodies.length < (s.around q).bodies.length) :
    e.sequenceEnd = some stop := by
  obtain ⟨found, hfound, -, hlt, hsame, -, hinside⟩ := hs.sequenceEnd p e he hrole
  have hlength := congrArg List.length hsame
  rw [hfound]
  congr 1
  rcases Nat.lt_trichotomy found stop with hless | heq | hmore
  · have h : (s.context p).bodies.length < (s.context found).bodies.length :=
      hopen found (by omega) hless
    change (s.context found).bodies.length = (s.context p).bodies.length at hlength
    omega
  · exact heq
  · have h : (s.context p).bodies.length < (s.context stop).bodies.length :=
      hinside stop (by omega) hmore
    change (s.context stop).bodies.length = (s.context p).bodies.length at hbodies
    omega

/-- The table leads from the length of a sequence to the place behind its close. -/
theorem sequenceEnd_sequence (hs : s.LaidOut) {p : Nat} {length opening closing : Token}
    {inner : Body} (h : s.tokens.drop p = length :: opening :: (inner.tokens ++ closing :: rest))
    (counts : length.role = .length) (opens : opening.role = .opening ⟨false, true⟩)
    (closes : closing.role = .closing ⟨false, true⟩) :
    ∃ e, s.entries[p]? = some e ∧ e.token = length ∧
      e.sequenceEnd = some (p + 2 + inner.size + 1) := by
  have ht := getElem?_of_drop h
  rw [getElem?_tokens] at ht
  obtain ⟨e, he, rfl⟩ := Option.map_eq_some_iff.1 ht
  obtain ⟨hlength, hfirst, -, -, -, hafter⟩ := around_sequence h counts opens closes
  refine ⟨e, he, rfl, ?_⟩
  apply sequenceEnd_of_tree hs he counts (by omega) (by rw [hafter])
  intro q hpq hq
  by_cases hq1 : q = p + 1
  · rw [hq1, hlength]
    exact Nat.lt_succ_self _
  · have hin := encloses_body (drop_succ_of_drop (drop_succ_of_drop h)) (q := q) (by omega)
      (by omega)
    rw [hfirst] at hin
    exact hin.bodies.length_le

theorem around_message {m : Message} {id : Nat}
    (h : s.tokens.drop id = m.tokens ++ rest) (hid : s.around id = ⟨[], [], none⟩) :
    s.around (id + m.tokens.length) = ⟨[], [], none⟩ := by
  simp only [Message.tokens, List.cons_append, List.append_assoc, List.nil_append] at h
  have hfirst := around_of_opening hid (getElem?_of_drop h) m.opens
  have hend := around_body (drop_succ_of_drop h) hfirst
  have hclose := drop_body (drop_succ_of_drop h)
  rw [m.length_tokens, show id + (m.body.size + 2) = id + 1 + m.body.size + 1 by omega]
  exact around_of_closing hend (getElem?_of_drop hclose) m.closes

theorem groups_message {m : Message} {id p : Nat}
    (h : s.tokens.drop id = m.tokens ++ rest) (hid : s.around id = ⟨[], [], none⟩) (hlt : id < p)
    (hp : p < id + m.tokens.length) : (s.around p).groups ≠ [] := by
  simp only [Message.tokens, List.cons_append, List.append_assoc, List.nil_append] at h
  rw [m.length_tokens] at hp
  have hfirst := around_of_opening hid (getElem?_of_drop h) m.opens
  have hin := encloses_body (drop_succ_of_drop h) (q := p) (by omega) (by omega)
  rw [hfirst] at hin
  exact List.length_pos_iff.1 hin.groups

theorem around_of_flat {s : Schema} {p : Nat} (hroles : ∀ token ∈ s.tokens, token.role = .plain)
    (hpos : 0 < p) (hle : p ≤ s.size) : s.around p = ⟨[], [], some 0⟩ := by
  induction p with
  | zero => exact absurd hpos (Nat.lt_irrefl _)
  | succ p ih =>
    have hp : p < s.tokens.length := by
      rw [length_tokens]
      omega
    have ht : s.tokens[p]? = some s.tokens[p] := List.getElem?_eq_getElem hp
    have hrole := hroles _ (List.getElem_mem hp)
    by_cases hzero : p = 0
    · subst hzero
      exact around_of_plain (c := ⟨[], [], none⟩) rfl ht hrole
    · exact around_of_plain (ih (Nat.pos_of_ne_zero hzero) (by omega)) ht hrole

end

end Schema

end FragmentPipe
