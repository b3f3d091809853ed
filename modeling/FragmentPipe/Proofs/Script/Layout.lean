import FragmentPipe.Proofs.Script.Context

set_option autoImplicit false

namespace FragmentPipe

namespace Layout

def context (l : Layout) : Context := ⟨l.groups, l.lengths.map (· + 1), l.draft⟩

def Permits (tokens : List Token) (position : Nat) (c : Context) (token : Token) : Prop :=
  (c.draft = none → token.isClosing = false → c.groups = [] → token.opensTemplate = true) ∧
    match token.role with
    | .plain => True
    | .length => ∃ next, tokens[position + 1]? = some next ∧ next.opensSequence = true
    | .opening kind =>
      (kind.sequence = true → ∃ length, 0 < position ∧ tokens[position - 1]? = some length ∧
        length.isLength = true) ∧ (kind.template = true → c.groups = [])
    | .closing kind => (∃ outer, c.groups = kind :: outer) ∧ (kind.sequence = true → c.bodies ≠ [])

def entryFor (offset : Int) (token : Token) (name : String) (l : Layout) : Entry where
  token
  name
  placement := (l.context.holder offset l.entries.size token).map fun draft =>
    ⟨draft.depth, draft.words⟩
  extent := none
  sequenceEnd := none
  startsMessage := l.boundary && !token.isClosing && l.groups.isEmpty

def endFragment (held : Option FragmentDraft) (token : Token) (position i : Nat)
    (extent : Option Extent) : Option Extent :=
  match held with
  | some draft =>
    if draft.start = i then some ⟨draft.words + token.words + 1, position + 1 - i⟩ else extent
  | none => extent

theorem fragmentFor_ok {offset : Int} {token : Token} {l l' : Layout}
    (hb : l.boundary = l.draft.isNone) (h : l.fragmentFor offset token = .ok l') :
    l' = { l with
        draft := l.context.holder offset l.entries.size token
        boundary := (l.context.holder offset l.entries.size token).isNone } ∧
      (l.draft = none → token.isClosing = false → l.groups = [] → token.opensTemplate = true) := by
  unfold fragmentFor at h
  cases hd : l.draft with
  | some draft =>
    simp only [hd, Option.isNone_some] at hb
    simp only [hb, Bool.false_and, Bool.false_eq_true, ↓reduceIte, Except.ok.injEq] at h
    subst h
    refine ⟨?_, by simp⟩
    rw [Context.holder_of_some _ _ _ _ hd]
    cases l
    simp_all
  | none =>
    simp only [hd, Option.isNone_none] at hb
    have hheld := Context.holder_of_none offset l.entries.size token l.context hd
    cases hc : token.isClosing with
    | true =>
      simp only [hb, hc, Bool.not_true, Bool.and_false, Bool.false_eq_true, ↓reduceIte,
        Except.ok.injEq] at h
      subst h
      refine ⟨?_, by simp⟩
      simp only [hc, ↓reduceIte] at hheld
      rw [hheld]
      cases l
      simp_all
    | false =>
      simp only [hb, hc, Bool.not_false, Bool.and_self, ↓reduceIte] at h
      simp only [hc, Bool.false_eq_true, ↓reduceIte] at hheld
      split at h
      · cases h
      · rename_i hopens
        cases h
        refine ⟨?_, ?_⟩
        · rw [hheld]
          simp [context]
        · intro _ _ hg
          simpa [hg] using hopens

theorem getElem?_finish (l : Layout) (i : Nat) :
    l.finish.entries[i]? = l.entries[i]?.map fun e =>
      { e with
        extent := match l.draft with
          | some draft =>
            if draft.start = i then some ⟨draft.words + 1, l.entries.size - draft.start⟩
            else e.extent
          | none => e.extent } := by
  unfold finish
  cases hd : l.draft with
  | none => simp
  | some draft =>
    simp only [Array.getElem?_modify]
    by_cases hs : draft.start = i
    · simp [hs]
    · simp [hs]

@[simp] theorem size_finish (l : Layout) : l.finish.entries.size = l.entries.size := by
  unfold finish
  split <;> simp

@[simp] theorem groups_finish (l : Layout) : l.finish.groups = l.groups := by
  unfold finish
  split <;> rfl

@[simp] theorem lengths_finish (l : Layout) : l.finish.lengths = l.lengths := by
  unfold finish
  split <;> rfl

@[simp] theorem draft_finish (l : Layout) : l.finish.draft = none := by
  unfold finish
  split
  · assumption
  · rfl

def laid (offset : Int) (token : Token) (name : String) (l : Layout) : Layout where
  entries := l.entries.push (l.entryFor offset token name)
  groups := l.groups
  lengths := l.lengths
  draft := (l.context.holder offset l.entries.size token).map fun draft =>
    { draft with words := draft.words + token.words }
  boundary := (l.context.holder offset l.entries.size token).isNone

/-- An entry after a step: its fragment may have ended with the token, and a close gives the length
token it answers the end of its sequence. -/
def settleEntry (offset : Int) (token : Token) (l l' : Layout) (i : Nat) (e : Entry) : Entry :=
  { e with
    extent :=
      if l'.draft = none then
        endFragment (l.context.holder offset l.entries.size token) token l.entries.size i e.extent
      else e.extent
    sequenceEnd :=
      if token.closesSequence = true ∧ l.lengths.head? = some i then some (l.entries.size + 1)
      else e.sequenceEnd }

/-- A successful step is allowed by the grammar, moves the context past its token, appends one
entry and settles what ends there. -/
structure Advances (offset : Int) (tokens : List Token) (token : Token) (name : String)
    (l l' : Layout) : Prop where
  permits : Permits tokens l.entries.size l.context token
  context : l'.context = l.context.after offset l.entries.size token
  boundary : l'.boundary = l'.draft.isNone
  size : l'.entries.size = l.entries.size + 1
  entries : ∀ i, l'.entries[i]? = (l.entries.push (l.entryFor offset token name))[i]?.map
    (settleEntry offset token l l' i)

section Step

variable {offset : Int} {tokens : List Token} {token : Token} {name : String} {l l' : Layout}

@[simp] theorem groups_laid : (l.laid offset token name).groups = l.groups := rfl

@[simp] theorem lengths_laid : (l.laid offset token name).lengths = l.lengths := rfl

@[simp] theorem size_laid : (l.laid offset token name).entries.size = l.entries.size + 1 := by
  simp [laid]

theorem getElem?_finish_laid (hend : l'.draft = none) (i : Nat) :
    (l.laid offset token name).finish.entries[i]? =
      (l.entries.push (l.entryFor offset token name))[i]?.map fun e =>
        { settleEntry offset token l l' i e with sequenceEnd := e.sequenceEnd } := by
  rw [getElem?_finish]
  simp only [settleEntry, hend, ↓reduceIte, laid, endFragment, Array.size_push]
  congr 1
  funext e
  cases l.context.holder offset l.entries.size token with
  | none => rfl
  | some draft =>
    by_cases hs : draft.start = i
    · simp [hs]
    · simp [hs]

theorem getElem?_laid_of_open (hclose : token.closesSequence = false)
    (hkeep : l'.draft = none → l.context.holder offset l.entries.size token = none) (i : Nat) :
    (l.laid offset token name).entries[i]? =
      (l.entries.push (l.entryFor offset token name))[i]?.map
        (settleEntry offset token l l' i) := by
  have hid : settleEntry offset token l l' i = id := by
    funext e
    unfold settleEntry
    by_cases hd : l'.draft = none
    · simp [hclose, hd, hkeep hd, endFragment]
    · simp [hclose, hd]
  rw [hid, Option.map_id]
  rfl

theorem step_eq_laid (hb : l.boundary = l.draft.isNone) {next : Option Token}
    (h : l.step offset next token name = .ok l') :
    (l.draft = none → token.isClosing = false → l.groups = [] → token.opensTemplate = true) ∧
      (match token.role with
        | .length => (l.laid offset token name).openLength l.entries.size next
        | .opening kind => (l.laid offset token name).openGroup l.entries.size l.previous? kind
        | .closing kind => (l.laid offset token name).closeGroup l.entries.size kind
        | .plain => .ok (l.laid offset token name)) = .ok l' := by
  unfold step at h
  cases hf : l.fragmentFor offset token with
  | error cause => simp [hf, bind, Except.bind] at h
  | ok begun =>
    obtain ⟨rfl, hopens⟩ := fragmentFor_ok hb hf
    simp only [hf, bind, Except.bind] at h
    exact ⟨hopens, h⟩

theorem advances_length (hr : token.role = .length)
    (hopens : l.draft = none → token.isClosing = false → l.groups = [] →
      token.opensTemplate = true)
    (h : (l.laid offset token name).openLength l.entries.size tokens[l.entries.size + 1]? =
      .ok l') : Advances offset tokens token name l l' := by
  have hclose : token.closesSequence = false := Token.closesSequence_of_role hr
  unfold openLength at h
  split at h
  · rename_i hnext
    injection h with h
    have hd : l'.draft = none := by simp [← h]
    have he : l'.entries = (l.laid offset token name).finish.entries := by rw [← h]
    obtain ⟨next, hnext, hopen⟩ := Option.any_eq_true _ _ |>.1 hnext
    refine ⟨⟨hopens, by rw [hr]; exact ⟨next, hnext, hopen⟩⟩, ?_, by simp [← h], by simp [he], ?_⟩
    · rw [Context.after_of_length _ _ _ _ hr]
      simp [← h, context]
    · intro i
      rw [he, getElem?_finish_laid hd]
      congr 1
      funext e
      simp [settleEntry, hclose]
  · cases h

theorem advances_opening {kind : GroupKind} (hr : token.role = .opening kind)
    (htokens : ∀ (i : Nat) (e : Entry), l.entries[i]? = some e → tokens[i]? = some e.token)
    (hopens : l.draft = none → token.isClosing = false → l.groups = [] →
      token.opensTemplate = true)
    (h : (l.laid offset token name).openGroup l.entries.size l.previous? kind = .ok l') :
    Advances offset tokens token name l l' := by
  have hclose : token.closesSequence = false := Token.closesSequence_of_role hr
  unfold openGroup at h
  split at h
  · cases h
  · rename_i hpaired
    split at h
    · cases h
    · rename_i hinside
      cases h
      refine ⟨⟨hopens, ?_⟩, ?_, by simp [laid], by simp, ?_⟩
      · rw [hr]
        refine ⟨?_, ?_⟩
        · intro hs
          have hany : l.previous?.any Token.isLength = true := by simpa [hs] using hpaired
          obtain ⟨length, hprev, hlength⟩ := Option.any_eq_true _ _ |>.1 hany
          obtain ⟨e, he, rfl⟩ := Option.map_eq_some_iff.1 hprev
          rw [Array.back?_eq_getElem?] at he
          have hpos : 0 < l.entries.size := by
            apply Nat.pos_of_ne_zero
            intro hzero
            simp [hzero] at he
          exact ⟨e.token, hpos, htokens _ e he, hlength⟩
        · intro ht
          simpa [ht, context] using hinside
      · rw [Context.after_of_opening _ _ _ _ hr]
        rfl
      · intro i
        exact getElem?_laid_of_open hclose (by simp [laid]) i

section Closing

variable {kind : GroupKind} {groups : List GroupKind} (hr : token.role = .closing kind)
  (hpermits : Permits tokens l.entries.size l.context token) (hg : l.groups = kind :: groups)

include hr hpermits hg

theorem advances_closing_sequence (hs : kind.sequence = true) {length : Nat} {lengths : List Nat}
    (hl : l.lengths = length :: lengths)
    (h : { (l.laid offset token name).finish with
      entries := (l.laid offset token name).finish.entries.modify length fun e =>
        { e with sequenceEnd := some (l.entries.size + 1) }
      groups, lengths, boundary := true } = l') :
    Advances offset tokens token name l l' := by
  have hclose : token.closesSequence = kind.sequence := Token.closesSequence_of_role hr
  have hd : l'.draft = none := by simp [← h]
  refine ⟨hpermits, ?_, by simp [← h], by simp [← h], ?_⟩
  · rw [Context.after_of_closing _ _ _ _ hr]
    simp [← h, context, hs, hl, hg]
  · intro i
    rw [← congrArg Layout.entries h]
    simp only [Array.getElem?_modify]
    rw [getElem?_finish_laid hd]
    by_cases hi : length = i
    · subst hi
      simp only [↓reduceIte, Option.map_map]
      congr 1
      funext e
      simp [settleEntry, hclose, hs, hl]
    · simp only [hi, ↓reduceIte]
      congr 1
      funext e
      simp [settleEntry, hl, hi]

theorem advances_closing_template (hs : kind.sequence = false) (ht : kind.template = true)
    (h : { (l.laid offset token name).finish with groups, boundary := true } = l') :
    Advances offset tokens token name l l' := by
  have hclose : token.closesSequence = kind.sequence := Token.closesSequence_of_role hr
  have hd : l'.draft = none := by simp [← h]
  have he : l'.entries = (l.laid offset token name).finish.entries := by rw [← h]
  refine ⟨hpermits, ?_, by simp [← h], by simp [he], ?_⟩
  · rw [Context.after_of_closing _ _ _ _ hr]
    simp [← h, context, hs, ht, hg]
  · intro i
    rw [he, getElem?_finish_laid hd]
    congr 1
    funext e
    simp [settleEntry, hclose, hs]

theorem advances_closing_group (hs : kind.sequence = false) (ht : kind.template = false) :
    Advances offset tokens token name l { l.laid offset token name with groups } := by
  have hclose : token.closesSequence = kind.sequence := Token.closesSequence_of_role hr
  refine ⟨hpermits, ?_, by simp [laid], by simp, ?_⟩
  · rw [Context.after_of_closing _ _ _ _ hr]
    simp [context, hs, ht, hg, laid]
  · intro i
    exact getElem?_laid_of_open (by rw [hclose, hs]) (by simp [laid]) i

end Closing

theorem advances_closing {kind : GroupKind} (hr : token.role = .closing kind)
    (hopens : l.draft = none → token.isClosing = false → l.groups = [] →
      token.opensTemplate = true)
    (h : (l.laid offset token name).closeGroup l.entries.size kind = .ok l') :
    Advances offset tokens token name l l' := by
  unfold closeGroup at h
  cases hg : l.groups with
  | nil => simp [hg] at h
  | cons innermost groups =>
    simp only [groups_laid, hg] at h
    split at h
    · cases h
    rename_i hkind
    obtain rfl : innermost = kind := by simpa using hkind
    have hpermits : (innermost.sequence = true → l.lengths ≠ []) →
        Permits tokens l.entries.size l.context token := by
      intro hs
      refine ⟨hopens, ?_⟩
      rw [hr]
      exact ⟨⟨groups, by simp [context, hg]⟩, by simpa [context] using hs⟩
    cases hs : innermost.sequence with
    | true =>
      rw [if_pos hs] at h
      cases hl : l.lengths with
      | nil => simp [hl] at h
      | cons length lengths =>
        simp only [lengths_laid, hl] at h
        exact advances_closing_sequence hr (hpermits (by simp [hl])) hg hs hl (Except.ok.inj h)
    | false =>
      simp only [hs, Bool.false_eq_true, ↓reduceIte] at h
      have hpermits := hpermits (by simp [hs])
      cases ht : innermost.template with
      | true =>
        rw [if_pos ht] at h
        exact advances_closing_template hr hpermits hg hs ht (Except.ok.inj h)
      | false =>
        simp only [ht, Bool.false_eq_true, ↓reduceIte] at h
        cases h
        exact advances_closing_group hr hpermits hg hs ht

theorem step_advances (hb : l.boundary = l.draft.isNone)
    (htokens : ∀ (i : Nat) (e : Entry), l.entries[i]? = some e → tokens[i]? = some e.token)
    (h : l.step offset tokens[l.entries.size + 1]? token name = .ok l') :
    Advances offset tokens token name l l' := by
  obtain ⟨hopens, h⟩ := step_eq_laid hb h
  cases hr : token.role with
  | plain =>
    simp only [hr, Except.ok.injEq] at h
    subst h
    have hclose : token.closesSequence = false := Token.closesSequence_of_role hr
    refine ⟨⟨hopens, by simp [hr]⟩, ?_, by simp [laid], by simp, ?_⟩
    · rw [Context.after_of_plain _ _ _ _ hr]
      rfl
    · intro i
      exact getElem?_laid_of_open hclose (by simp [laid]) i
  | length => exact advances_length hr hopens (by simpa only [hr] using h)
  | opening kind => exact advances_opening hr htokens hopens (by simpa only [hr] using h)
  | closing kind => exact advances_closing hr hopens (by simpa only [hr] using h)

end Step

end Layout

end FragmentPipe
