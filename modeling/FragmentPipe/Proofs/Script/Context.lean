import FragmentPipe.Schema.Compile

set_option autoImplicit false

namespace FragmentPipe

structure Context where
  groups : List GroupKind
  /-- Where the bodies of the open sequences begin, innermost first. -/
  bodies : List Nat
  /-- The fragment that goes on here. -/
  draft : Option FragmentDraft
deriving DecidableEq, Repr

namespace Context

def outside : Context := ⟨[], [], none⟩

/-- The fragment that the token at `position` belongs to, as it was before the token. -/
def holder (offset : Int) (position : Nat) (token : Token) (c : Context) : Option FragmentDraft :=
  match c.draft with
  | some draft => some draft
  | none =>
    if token.isClosing then none
    else some ⟨position, if c.groups.isEmpty then offset + 1 else 0, c.bodies.length⟩

def after (offset : Int) (position : Nat) (token : Token) (c : Context) : Context :=
  let draft := (c.holder offset position token).map fun draft =>
    { draft with words := draft.words + token.words }
  match token.role with
  | .plain => { c with draft }
  | .length => { c with bodies := (position + 1) :: c.bodies, draft := none }
  | .opening kind => { c with groups := kind :: c.groups, draft }
  | .closing kind =>
    { groups := c.groups.tail
      bodies := if kind.sequence then c.bodies.tail else c.bodies
      draft := if kind.sequence || kind.template then none else draft }

section After

variable (offset : Int) (position : Nat) (token : Token) (c : Context)

theorem after_of_plain (h : token.role = .plain) :
    c.after offset position token =
      { c with
        draft := (c.holder offset position token).map fun draft =>
          { draft with words := draft.words + token.words } } := by
  simp [after, h]

theorem after_of_length (h : token.role = .length) :
    c.after offset position token =
      { c with bodies := (position + 1) :: c.bodies, draft := none } := by
  simp [after, h]

theorem after_of_opening {kind : GroupKind} (h : token.role = .opening kind) :
    c.after offset position token =
      { c with
        groups := kind :: c.groups
        draft := (c.holder offset position token).map fun draft =>
          { draft with words := draft.words + token.words } } := by
  simp [after, h]

theorem after_of_closing {kind : GroupKind} (h : token.role = .closing kind) :
    c.after offset position token =
      { groups := c.groups.tail
        bodies := if kind.sequence then c.bodies.tail else c.bodies
        draft := if kind.sequence || kind.template then none
          else (c.holder offset position token).map fun draft =>
            { draft with words := draft.words + token.words } } := by
  simp [after, h]

/-- Whatever a token ends, a fragment that goes on behind it is the one that holds it. -/
theorem draft_after {draft : FragmentDraft}
    (h : (c.after offset position token).draft = some draft) :
    ∃ held, c.holder offset position token = some held ∧
      draft = { held with words := held.words + token.words } ∧
      (c.after offset position token).bodies = c.bodies := by
  cases hr : token.role with
  | plain =>
    rw [after_of_plain _ _ _ _ hr] at h ⊢
    obtain ⟨held, hheld, rfl⟩ := Option.map_eq_some_iff.1 h
    exact ⟨held, hheld, rfl, rfl⟩
  | length =>
    rw [after_of_length _ _ _ _ hr] at h
    cases h
  | opening kind =>
    rw [after_of_opening _ _ _ _ hr] at h ⊢
    obtain ⟨held, hheld, rfl⟩ := Option.map_eq_some_iff.1 h
    exact ⟨held, hheld, rfl, rfl⟩
  | closing kind =>
    rw [after_of_closing _ _ _ _ hr] at h ⊢
    by_cases hk : (kind.sequence || kind.template) = true
    · simp [hk] at h
    · have hs : kind.sequence = false := by
        cases hs : kind.sequence <;> simp_all
      simp only [hk, Bool.false_eq_true, ↓reduceIte] at h
      obtain ⟨held, hheld, rfl⟩ := Option.map_eq_some_iff.1 h
      exact ⟨held, hheld, rfl, by simp [hs]⟩

theorem holder_of_some {draft : FragmentDraft} (h : c.draft = some draft) :
    c.holder offset position token = some draft := by
  simp [holder, h]

theorem holder_of_none (h : c.draft = none) :
    c.holder offset position token =
      if token.isClosing then none
      else some ⟨position, if c.groups.isEmpty then offset + 1 else 0, c.bodies.length⟩ := by
  simp [holder, h]

end After

end Context

def contextAt (offset : Int) (tokens : List Token) : Nat → Context
  | 0 => .outside
  | position + 1 =>
    match tokens[position]? with
    | none => contextAt offset tokens position
    | some token => (contextAt offset tokens position).after offset position token

section ContextAt

variable {offset : Int} {tokens : List Token}

theorem contextAt_succ {position : Nat} {token : Token} (h : tokens[position]? = some token) :
    contextAt offset tokens (position + 1) =
      (contextAt offset tokens position).after offset position token := by
  simp [contextAt, h]

/-- A fragment that goes on began earlier, at the same depth and as no close. -/
theorem draft_contextAt {position : Nat} {draft : FragmentDraft}
    (h : (contextAt offset tokens position).draft = some draft) :
    draft.start < position ∧ draft.depth = (contextAt offset tokens position).bodies.length ∧
      (contextAt offset tokens draft.start).draft = none ∧
      (contextAt offset tokens draft.start).bodies = (contextAt offset tokens position).bodies ∧
      ∃ token, tokens[draft.start]? = some token ∧ token.isClosing = false := by
  induction position generalizing draft with
  | zero => cases h
  | succ position ih =>
    cases ht : tokens[position]? with
    | none =>
      simp only [contextAt, ht] at h ⊢
      obtain ⟨hlt, hrest⟩ := ih h
      exact ⟨by omega, hrest⟩
    | some token =>
      rw [contextAt_succ ht] at h ⊢
      obtain ⟨held, hheld, rfl, hbodies⟩ := Context.draft_after _ _ _ _ h
      rw [hbodies]
      cases hd : (contextAt offset tokens position).draft with
      | some earlier =>
        rw [Context.holder_of_some _ _ _ _ hd] at hheld
        cases hheld
        obtain ⟨hlt, hrest⟩ := ih hd
        exact ⟨by simp only; omega, hrest⟩
      | none =>
        rw [Context.holder_of_none _ _ _ _ hd] at hheld
        split at hheld
        · cases hheld
        · rename_i hclose
          cases hheld
          exact ⟨by simp, rfl, hd, rfl, token, ht, by simpa using hclose⟩

theorem depth_of_holder {position : Nat} {token : Token} {held : FragmentDraft}
    (h : (contextAt offset tokens position).holder offset position token = some held) :
    held.depth = (contextAt offset tokens position).bodies.length := by
  cases hd : (contextAt offset tokens position).draft with
  | some draft =>
    rw [Context.holder_of_some _ _ _ _ hd] at h
    cases h
    exact (draft_contextAt hd).2.1
  | none =>
    rw [Context.holder_of_none _ _ _ _ hd] at h
    split at h <;> cases h
    rfl

theorem start_le_of_holder {position : Nat} {token : Token} {held : FragmentDraft}
    (h : (contextAt offset tokens position).holder offset position token = some held) :
    held.start ≤ position := by
  cases hd : (contextAt offset tokens position).draft with
  | some draft =>
    rw [Context.holder_of_some _ _ _ _ hd] at h
    cases h
    exact Nat.le_of_lt (draft_contextAt hd).1
  | none =>
    rw [Context.holder_of_none _ _ _ _ hd] at h
    split at h <;> cases h
    exact Nat.le_refl _

theorem le_start_of_draft {position later : Nat} {draft : FragmentDraft}
    (hnone : (contextAt offset tokens position).draft = none) (hle : position ≤ later)
    (h : (contextAt offset tokens later).draft = some draft) : position ≤ draft.start := by
  induction hle generalizing draft with
  | refl =>
    rw [hnone] at h
    cases h
  | @step later hle ih =>
    cases ht : tokens[later]? with
    | none =>
      simp only [contextAt, ht] at h
      exact ih h
    | some token =>
      rw [Nat.succ_eq_add_one, contextAt_succ ht] at h
      obtain ⟨held, hheld, rfl, -⟩ := Context.draft_after _ _ _ _ h
      cases hd : (contextAt offset tokens later).draft with
      | some earlier =>
        rw [Context.holder_of_some _ _ _ _ hd] at hheld
        cases hheld
        have hstart := ih hd
        exact hstart
      | none =>
        rw [Context.holder_of_none _ _ _ _ hd] at hheld
        split at hheld <;> cases hheld
        exact hle

theorem bodies_contextAt_succ (offset : Int) {position : Nat} {token : Token}
    (h : tokens[position]? = some token) : (contextAt offset tokens (position + 1)).bodies =
      match token.role with
      | .length => (position + 1) :: (contextAt offset tokens position).bodies
      | .closing kind =>
        if kind.sequence then (contextAt offset tokens position).bodies.tail
        else (contextAt offset tokens position).bodies
      | _ => (contextAt offset tokens position).bodies := by
  rw [contextAt_succ h, Context.after]
  cases token.role <;> rfl

/-- An open sequence was entered behind its length token and has not been left since. -/
theorem length_of_bodies {position body : Nat} {inner outer : List Nat}
    (h : (contextAt offset tokens position).bodies = inner ++ body :: outer) :
    ∃ length token, body = length + 1 ∧ length < position ∧ tokens[length]? = some token ∧
      token.role = .length ∧ (contextAt offset tokens length).bodies = outer ∧
      ∀ q, length < q → q ≤ position →
        outer.length < (contextAt offset tokens q).bodies.length := by
  induction position generalizing inner with
  | zero => simp [contextAt, Context.outside] at h
  | succ position ih =>
    -- In each case the sequence was open one token earlier, or this token is its length.
    have earlier : ∀ front, (contextAt offset tokens position).bodies = front ++ body :: outer →
        ∃ length token, body = length + 1 ∧ length < position + 1 ∧
          tokens[length]? = some token ∧ token.role = .length ∧
          (contextAt offset tokens length).bodies = outer ∧ ∀ q, length < q → q ≤ position + 1 →
            outer.length < (contextAt offset tokens q).bodies.length := by
      intro front hfront
      obtain ⟨length, token, hbody, hlt, htoken, hrole, houter, hopen⟩ := ih hfront
      refine ⟨length, token, hbody, by omega, htoken, hrole, houter, ?_⟩
      intro q hq hle
      by_cases hlast : q = position + 1
      · rw [hlast, h]
        simp only [List.length_append, List.length_cons]
        omega
      · exact hopen q hq (by omega)
    cases ht : tokens[position]? with
    | none =>
      simp only [contextAt, ht] at h
      exact earlier inner h
    | some token =>
      have hb := bodies_contextAt_succ offset ht
      rw [h] at hb
      cases hr : token.role with
      | plain => exact earlier inner (by simpa [hr] using hb.symm)
      | opening kind => exact earlier inner (by simpa [hr] using hb.symm)
      | length =>
        simp only [hr] at hb
        cases inner with
        | nil =>
          simp only [List.nil_append, List.cons.injEq] at hb
          refine ⟨position, token, hb.1, by omega, ht, hr, hb.2.symm, ?_⟩
          intro q hq hle
          obtain rfl : q = position + 1 := by omega
          rw [h]
          simp
        | cons first front =>
          simp only [List.cons_append, List.cons.injEq] at hb
          exact earlier front hb.2.symm
      | closing kind =>
        simp only [hr] at hb
        by_cases hs : kind.sequence = true
        · simp only [hs, ↓reduceIte] at hb
          cases hbodies : (contextAt offset tokens position).bodies with
          | nil =>
            rw [hbodies] at hb
            simp at hb
          | cons first rest =>
            rw [hbodies] at hb
            exact earlier (first :: inner) (hbodies.trans (congrArg (List.cons first) hb.symm))
        · exact earlier inner (by simpa [hs] using hb.symm)

end ContextAt

end FragmentPipe
