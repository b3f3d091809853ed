import FragmentPipe.Proofs.Script.Layout

set_option autoImplicit false

namespace FragmentPipe

/-- The sequence whose length token stands at `length` ends right before `stop`: nothing of it is
open there, and it is open at every position between. -/
def SequenceEnds (offset : Int) (tokens : List Token) (length stop : Nat) : Prop :=
  length + 1 < stop ∧
    (contextAt offset tokens stop).bodies = (contextAt offset tokens length).bodies ∧
    (contextAt offset tokens stop).draft = none ∧
    ∀ q, length < q → q < stop →
      (contextAt offset tokens length).bodies.length < (contextAt offset tokens q).bodies.length

namespace Context

def HeldFrom (offset : Int) (position : Nat) (token : Token) (c : Context) (start : Nat) : Prop :=
  ∃ held, c.holder offset position token = some held ∧ held.start = start

end Context

theorem heldFrom_of_lt {offset : Int} {tokens : List Token} {token : Token} {position i : Nat}
    (hi : i < position) : (contextAt offset tokens position).HeldFrom offset position token i ↔
      ∃ draft, (contextAt offset tokens position).draft = some draft ∧ draft.start = i := by
  unfold Context.HeldFrom
  cases hd : (contextAt offset tokens position).draft with
  | some draft => rw [Context.holder_of_some _ _ _ _ hd]
  | none =>
    rw [Context.holder_of_none _ _ _ _ hd]
    split <;> simp
    omega

theorem heldFrom_self {offset : Int} {tokens : List Token} {token : Token} {position : Nat} :
    (contextAt offset tokens position).HeldFrom offset position token position ↔
      (contextAt offset tokens position).draft = none ∧ token.isClosing = false := by
  unfold Context.HeldFrom
  cases hd : (contextAt offset tokens position).draft with
  | some draft =>
    have hlt := (draft_contextAt hd).1
    rw [Context.holder_of_some _ _ _ _ hd]
    simp
    omega
  | none =>
    rw [Context.holder_of_none _ _ _ _ hd]
    split <;> simp_all

namespace Layout

/-- The tables laid so far agree with the context of every position. -/
structure Sound (offset : Int) (tokens : List Token) (l : Layout) : Prop where
  context : l.context = contextAt offset tokens l.entries.size
  boundary : l.boundary = l.draft.isNone
  token : ∀ (i : Nat) (e : Entry), l.entries[i]? = some e → tokens[i]? = some e.token
  permits : ∀ (i : Nat) (e : Entry), l.entries[i]? = some e →
    Permits tokens i (contextAt offset tokens i) e.token
  placement : ∀ (i : Nat) (e : Entry), l.entries[i]? = some e →
    e.placement = ((contextAt offset tokens i).holder offset i e.token).map fun draft =>
      ⟨draft.depth, draft.words⟩
  startsMessage : ∀ (i : Nat) (e : Entry), l.entries[i]? = some e →
    e.startsMessage = ((contextAt offset tokens i).draft.isNone && !e.token.isClosing &&
      (contextAt offset tokens i).groups.isEmpty)
  extent_isSome : ∀ (i : Nat) (e : Entry), l.entries[i]? = some e →
    (e.extent.isSome = true ↔ (contextAt offset tokens i).draft = none ∧
      e.token.isClosing = false ∧ ∀ draft, l.draft = some draft → draft.start ≠ i)
  extent : ∀ (i : Nat) (e : Entry) (held : FragmentDraft), l.entries[i]? = some e →
    (contextAt offset tokens i).holder offset i e.token = some held →
    (contextAt offset tokens (i + 1)).draft = none →
    ∃ first, l.entries[held.start]? = some first ∧
      first.extent = some ⟨held.words + e.token.words + 1, i + 1 - held.start⟩
  sequenceEnd : ∀ (i : Nat) (e : Entry), l.entries[i]? = some e → e.token.role = .length →
    i + 1 ∈ (contextAt offset tokens l.entries.size).bodies ∨
      ∃ stop, e.sequenceEnd = some stop ∧ stop ≤ l.entries.size ∧
        SequenceEnds offset tokens i stop

theorem sound_empty (offset : Int) (tokens : List Token) : empty.Sound offset tokens where
  context := rfl
  boundary := rfl
  token := by simp [empty]
  permits := by simp [empty]
  placement := by simp [empty]
  startsMessage := by simp [empty]
  extent_isSome := by simp [empty]
  extent := by simp [empty]
  sequenceEnd := by simp [empty]

section Step

variable {offset : Int} {tokens : List Token} {token : Token} {name : String} {l l' : Layout}

theorem Advances.entry (hadv : Advances offset tokens token name l l') {i : Nat} {e' : Entry}
    (h : l'.entries[i]? = some e') :
    (∃ e, l.entries[i]? = some e ∧ i < l.entries.size ∧ e' = settleEntry offset token l l' i e) ∨
      i = l.entries.size ∧
        e' = settleEntry offset token l l' i (l.entryFor offset token name) := by
  rw [hadv.entries i, Array.getElem?_push] at h
  split at h
  · rename_i hi
    simp only [Option.map_some, Option.some.injEq] at h
    exact .inr ⟨hi, h.symm⟩
  · obtain ⟨e, he, rfl⟩ := Option.map_eq_some_iff.1 h
    exact .inl ⟨e, he, (Array.getElem?_eq_some_iff.1 he).1, rfl⟩

theorem Advances.entry_of_lt (hadv : Advances offset tokens token name l l') {i : Nat} {e : Entry}
    (h : l.entries[i]? = some e) : l'.entries[i]? = some (settleEntry offset token l l' i e) := by
  have hi : i < l.entries.size := (Array.getElem?_eq_some_iff.1 h).1
  rw [hadv.entries i, Array.getElem?_push, if_neg (by omega), h]
  rfl

theorem Advances.entry_last (hadv : Advances offset tokens token name l l') :
    l'.entries[l.entries.size]? =
      some (settleEntry offset token l l' l.entries.size (l.entryFor offset token name)) := by
  rw [hadv.entries, Array.getElem?_push, if_pos rfl]
  rfl

theorem Advances.contextAt (hadv : Advances offset tokens token name l l')
    (hl : l.Sound offset tokens) (ht : tokens[l.entries.size]? = some token) :
    l'.context = contextAt offset tokens (l.entries.size + 1) := by
  rw [hadv.context, contextAt_succ ht, ← hl.context]

theorem Sound.draft_eq (hl : l.Sound offset tokens) :
    l.draft = (contextAt offset tokens l.entries.size).draft :=
  congrArg Context.draft hl.context

theorem Advances.draft_eq (hadv : Advances offset tokens token name l l')
    (hl : l.Sound offset tokens) (ht : tokens[l.entries.size]? = some token) :
    l'.draft = (FragmentPipe.contextAt offset tokens (l.entries.size + 1)).draft :=
  congrArg Context.draft (hadv.contextAt hl ht)

/-- A fragment that goes on behind the token is the one that holds it. -/
theorem draft_start_iff (hl : l.Sound offset tokens)
    (hadv : Advances offset tokens token name l l') (ht : tokens[l.entries.size]? = some token)
    {i : Nat} : (∃ draft, l'.draft = some draft ∧ draft.start = i) ↔ l'.draft.isSome = true ∧
      (contextAt offset tokens l.entries.size).HeldFrom offset l.entries.size token i := by
  have hdraft := hadv.draft_eq hl ht
  rw [contextAt_succ ht] at hdraft
  have hgoes : ∀ draft, l'.draft = some draft → ∃ held,
      (contextAt offset tokens l.entries.size).holder offset l.entries.size token = some held ∧
        held.start = draft.start := by
    intro draft hd
    rw [hdraft] at hd
    obtain ⟨held, hheld, rfl, -⟩ := Context.draft_after _ _ _ _ hd
    exact ⟨held, hheld, rfl⟩
  constructor
  · rintro ⟨draft, hd, rfl⟩
    exact ⟨Option.isSome_iff_exists.2 ⟨draft, hd⟩, hgoes draft hd⟩
  · rintro ⟨hsome, held, hheld, hstart⟩
    obtain ⟨draft, hd⟩ := Option.isSome_iff_exists.1 hsome
    obtain ⟨held', hheld', hsame⟩ := hgoes draft hd
    rw [hheld] at hheld'
    cases hheld'
    exact ⟨draft, hd, hsame.symm.trans hstart⟩

theorem Sound.begins_of_heldFrom (hl : l.Sound offset tokens) {i : Nat} {e : Entry}
    (he : l.entries[i]? = some e) (hi : i < l.entries.size)
    (h : (contextAt offset tokens l.entries.size).HeldFrom offset l.entries.size token i) :
    (contextAt offset tokens i).draft = none ∧ e.token.isClosing = false := by
  obtain ⟨draft, hd, rfl⟩ := (heldFrom_of_lt hi).1 h
  obtain ⟨-, -, hnone, -, first, hfirst, hopen⟩ := draft_contextAt hd
  rw [hl.token _ e he] at hfirst
  cases hfirst
  exact ⟨hnone, hopen⟩

/-- The entry that a fragment begins with gets its extent when the fragment ends. -/
theorem isSome_settleEntry (hl : l.Sound offset tokens) {i : Nat} {e : Entry} :
    (settleEntry offset token l l' i e).extent.isSome = true ↔ (l'.draft = none ∧
      (contextAt offset tokens l.entries.size).HeldFrom offset l.entries.size token i) ∨
        e.extent.isSome = true := by
  unfold settleEntry
  rw [hl.context]
  by_cases hends : l'.draft = none
  · simp only [hends, ↓reduceIte, true_and]
    unfold endFragment Context.HeldFrom
    cases (contextAt offset tokens l.entries.size).holder offset l.entries.size token with
    | none => simp
    | some held => by_cases hstart : held.start = i <;> simp [hstart]
  · simp [hends]

theorem extent_isSome_step (hl : l.Sound offset tokens)
    (hadv : Advances offset tokens token name l l') (ht : tokens[l.entries.size]? = some token)
    (i : Nat) (e' : Entry) (h : l'.entries[i]? = some e') :
    e'.extent.isSome = true ↔ (contextAt offset tokens i).draft = none ∧
      e'.token.isClosing = false ∧ ∀ draft, l'.draft = some draft → draft.start ≠ i := by
  have hgoes : (∀ draft, l'.draft = some draft → draft.start ≠ i) ↔ ¬(l'.draft.isSome = true ∧
      (contextAt offset tokens l.entries.size).HeldFrom offset l.entries.size token i) := by
    rw [← draft_start_iff hl hadv ht]
    simp
  rw [hgoes]
  rcases hadv.entry h with ⟨e, he, hi, rfl⟩ | ⟨rfl, rfl⟩
  · have hbefore : (∀ draft, l.draft = some draft → draft.start ≠ i) ↔
        ¬(contextAt offset tokens l.entries.size).HeldFrom offset l.entries.size token i := by
      rw [heldFrom_of_lt hi, hl.draft_eq]
      simp
    rw [isSome_settleEntry hl, hl.extent_isSome i e he, hbefore]
    simp only [settleEntry]
    by_cases hheld : (contextAt offset tokens l.entries.size).HeldFrom offset l.entries.size token i
    · cases l'.draft <;> simp [hheld, hl.begins_of_heldFrom he hi hheld]
    · cases l'.draft <;> simp [hheld]
  · rw [isSome_settleEntry hl, heldFrom_self]
    simp only [settleEntry, entryFor]
    cases l'.draft <;> simp +contextual

theorem extent_step (hl : l.Sound offset tokens)
    (hadv : Advances offset tokens token name l l') (ht : tokens[l.entries.size]? = some token)
    (i : Nat) (e' : Entry) (held : FragmentDraft) (h : l'.entries[i]? = some e')
    (hheld : (contextAt offset tokens i).holder offset i e'.token = some held)
    (hend : (contextAt offset tokens (i + 1)).draft = none) :
    ∃ first, l'.entries[held.start]? = some first ∧
      first.extent = some ⟨held.words + e'.token.words + 1, i + 1 - held.start⟩ := by
  have hdraft' := hadv.draft_eq hl ht
  have hholder : l.context.holder offset l.entries.size token =
      (contextAt offset tokens l.entries.size).holder offset l.entries.size token := by
    rw [hl.context]
  rcases hadv.entry h with ⟨e, he, hi, rfl⟩ | ⟨rfl, rfl⟩
  · obtain ⟨first, hfirst, hextent⟩ := hl.extent i e held he hheld hend
    refine ⟨_, hadv.entry_of_lt hfirst, ?_⟩
    have hle : held.start ≤ i := start_le_of_holder hheld
    have hlater : ¬(contextAt offset tokens l.entries.size).HeldFrom offset l.entries.size token
        held.start := by
      rw [heldFrom_of_lt (Nat.lt_of_le_of_lt hle hi)]
      rintro ⟨draft, hd, hsame⟩
      have hbehind := le_start_of_draft hend hi hd
      omega
    simp only [settleEntry, hholder]
    split
    · unfold endFragment
      split
      · rename_i draft hdraft
        rw [if_neg fun hsame => hlater ⟨draft, hdraft, hsame⟩, hextent]
      · exact hextent
    · exact hextent
  · simp only [settleEntry, entryFor] at hheld ⊢
    have hle : held.start ≤ l.entries.size := start_le_of_holder hheld
    by_cases hs : held.start = l.entries.size
    · rw [hs]
      refine ⟨_, hadv.entry_last, ?_⟩
      simp [settleEntry, entryFor, hdraft', hend, hholder, hheld, endFragment, hs]
    · have hlt : held.start < l.entries.size := by omega
      refine ⟨_, hadv.entry_of_lt (Array.getElem?_eq_getElem hlt), ?_⟩
      simp [settleEntry, hdraft', hend, hholder, hheld, endFragment]

/-- The close that answers a length token ends its sequence. -/
theorem sequenceEnds_of_closes {position length : Nat} {outer : List Nat}
    (ht : tokens[position]? = some token) (hclose : token.closesSequence = true)
    (hbodies : (contextAt offset tokens position).bodies = (length + 1) :: outer) :
    SequenceEnds offset tokens length (position + 1) := by
  rw [Token.closesSequence_eq] at hclose
  obtain ⟨first, -, hsucc, hlt, -, -, houter, hopen⟩ :=
    length_of_bodies (show (contextAt offset tokens position).bodies =
      [] ++ (length + 1) :: outer from hbodies)
  obtain rfl : first = length := by omega
  have hnext := bodies_contextAt_succ offset ht
  cases hr : token.role with
  | plain | length | opening kind => simp [hr, TokenRole.closesSequence] at hclose
  | closing kind =>
    simp only [hr, TokenRole.closesSequence] at hclose
    refine ⟨by omega, ?_, ?_, ?_⟩
    · simp [hnext, hr, hclose, hbodies, houter]
    · rw [contextAt_succ ht, Context.after_of_closing _ _ _ _ hr]
      simp [hclose]
    · intro q hq hle
      rw [houter]
      exact hopen q hq (by omega)

theorem sequenceEnd_step (hl : l.Sound offset tokens)
    (hadv : Advances offset tokens token name l l') (ht : tokens[l.entries.size]? = some token)
    (i : Nat) (e' : Entry) (h : l'.entries[i]? = some e') (hr : e'.token.role = .length) :
    i + 1 ∈ (contextAt offset tokens (l.entries.size + 1)).bodies ∨
      ∃ stop, e'.sequenceEnd = some stop ∧ stop ≤ l.entries.size + 1 ∧
        SequenceEnds offset tokens i stop := by
  have hlengths : l.lengths.map (· + 1) = (contextAt offset tokens l.entries.size).bodies :=
    congrArg Context.bodies hl.context
  have hnext := bodies_contextAt_succ offset ht
  rcases hadv.entry h with ⟨e, he, hi, rfl⟩ | ⟨rfl, rfl⟩
  · simp only [settleEntry] at hr ⊢
    by_cases hclose : token.closesSequence = true ∧ l.lengths.head? = some i
    · obtain ⟨outer, houter⟩ := List.head?_eq_some_iff.1 hclose.2
      have hbodies : (contextAt offset tokens l.entries.size).bodies =
          (i + 1) :: outer.map (· + 1) := by
        rw [← hlengths, houter]
        rfl
      exact .inr ⟨l.entries.size + 1, by simp [hclose], Nat.le_refl _,
        sequenceEnds_of_closes ht hclose.1 hbodies⟩
    · simp only [hclose, ↓reduceIte]
      rcases hl.sequenceEnd i e he hr with hopen | ⟨stop, hstop, hle, hends⟩
      · left
        rw [hnext]
        cases hrole : token.role with
        | plain | opening kind => exact hopen
        | length => exact List.mem_cons_of_mem _ hopen
        | closing kind =>
          by_cases hs : kind.sequence = true
          · have hcs : token.closesSequence = true := (Token.closesSequence_of_role hrole).trans hs
            simp only [hs, ↓reduceIte]
            cases hls : l.lengths with
            | nil =>
              rw [← hlengths, hls] at hopen
              simp at hopen
            | cons first rest =>
              rw [← hlengths, hls] at hopen ⊢
              simp only [hcs, hls, List.head?_cons, Option.some.injEq, true_and] at hclose
              simp only [List.map_cons, List.mem_cons] at hopen
              rcases hopen with hfirst | hrest
              · omega
              · exact hrest
          · simpa [hs] using hopen
      · exact .inr ⟨stop, hstop, by omega, hends⟩
  · left
    simp only [settleEntry, entryFor] at hr
    rw [hnext, hr]
    exact List.mem_cons_self

theorem Sound.advance (hl : l.Sound offset tokens)
    (hadv : Advances offset tokens token name l l') (ht : tokens[l.entries.size]? = some token) :
    l'.Sound offset tokens where
  context := by rw [hadv.size, hadv.contextAt hl ht]
  boundary := hadv.boundary
  token i e' h := by
    rcases hadv.entry h with ⟨e, he, -, rfl⟩ | ⟨rfl, rfl⟩
    · exact hl.token i e he
    · exact ht
  permits i e' h := by
    rcases hadv.entry h with ⟨e, he, -, rfl⟩ | ⟨rfl, rfl⟩
    · exact hl.permits i e he
    · rw [← hl.context]
      exact hadv.permits
  placement i e' h := by
    rcases hadv.entry h with ⟨e, he, -, rfl⟩ | ⟨rfl, rfl⟩
    · exact hl.placement i e he
    · rw [← hl.context]
      rfl
  startsMessage i e' h := by
    rcases hadv.entry h with ⟨e, he, -, rfl⟩ | ⟨rfl, rfl⟩
    · exact hl.startsMessage i e he
    · rw [← hl.context, ← hl.boundary.trans (show l.draft.isNone = l.context.draft.isNone from rfl)]
      rfl
  extent_isSome := extent_isSome_step hl hadv ht
  extent := extent_step hl hadv ht
  sequenceEnd := by
    rw [hadv.size]
    exact sequenceEnd_step hl hadv ht

end Step

theorem sound_steps {offset : Int} {tokens : List Token} {script : List (Token × String)}
    {l l' : Layout} (hl : l.Sound offset tokens)
    (hrest : tokens.drop l.entries.size = script.map Prod.fst)
    (h : steps offset script l = .ok l') : l'.Sound offset tokens ∧
      l'.entries.size = l.entries.size + script.length := by
  induction script generalizing l with
  | nil =>
    cases h
    exact ⟨hl, rfl⟩
  | cons item rest ih =>
    obtain ⟨token, name⟩ := item
    have ht : tokens[l.entries.size]? = some token := by
      rw [← List.head?_drop, hrest]
      rfl
    have hnext : rest.head?.map Prod.fst = tokens[l.entries.size + 1]? := by
      rw [← List.head?_drop, ← List.tail_drop, hrest]
      simp
    unfold steps at h
    cases hs : l.step offset (rest.head?.map Prod.fst) token name with
    | error cause => simp [hs, bind, Except.bind] at h
    | ok next =>
      simp only [hs, bind, Except.bind] at h
      rw [hnext] at hs
      have hadv := step_advances hl.boundary hl.token hs
      have htail : tokens.drop next.entries.size = rest.map Prod.fst := by
        rw [hadv.size, ← List.tail_drop, hrest]
        rfl
      obtain ⟨hsound, hsize⟩ := ih (hl.advance hadv ht) htail h
      exact ⟨hsound, by rw [hsize, hadv.size, List.length_cons]; omega⟩

end Layout

end FragmentPipe
