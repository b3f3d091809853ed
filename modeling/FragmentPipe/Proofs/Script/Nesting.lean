import FragmentPipe.Proofs.Script.Tables

set_option autoImplicit false

namespace FragmentPipe

/-- Kinds of nested open groups, innermost first: only the outermost one is a template. -/
def Nested : List GroupKind → Prop
  | [] => True
  | kind :: outer => (if outer = [] then kind = ⟨true, false⟩ else kind.template = false) ∧
    Nested outer

def followsLength (tokens : List Token) : Nat → Bool
  | 0 => false
  | position + 1 => tokens[position]?.any Token.isLength

theorem followsLength_succ {tokens : List Token} {position : Nat} {token : Token}
    (h : tokens[position]? = some token) :
    followsLength tokens (position + 1) = token.role.isLength := by
  simp [followsLength, h, Token.isLength_eq]

def PermittedTo (offset : Int) (tokens : List Token) (position : Nat) : Prop :=
  ∀ i < position, ∀ token, tokens[i]? = some token →
    Layout.Permits tokens i (contextAt offset tokens i) token

structure WellNested (tokens : List Token) (position : Nat) (c : Context) : Prop where
  nested : Nested c.groups
  draft_outside : c.groups = [] → c.draft = none
  bodies_outside : c.groups = [] → c.bodies = []
  length_bodies : c.bodies.length =
    c.groups.countP GroupKind.sequence + (followsLength tokens position).toNat

section

variable {offset : Int} {tokens : List Token} {position : Nat} {token : Token} {c : Context}

theorem opensSequence_of_followsLength (hp : PermittedTo offset tokens position)
    (hf : followsLength tokens position = true) (ht : tokens[position]? = some token) :
    token.role.opensSequence = true := by
  cases position with
  | zero => simp [followsLength] at hf
  | succ position =>
    cases hlast : tokens[position]? with
    | none => simp [followsLength, hlast] at hf
    | some last =>
      rw [followsLength_succ hlast] at hf
      have hpermits := (hp position (by omega) last hlast).2
      cases hr : last.role with
      | plain | opening kind | closing kind => simp [hr, TokenRole.isLength] at hf
      | length =>
        simp only [hr] at hpermits
        obtain ⟨next, hnext, hopens⟩ := hpermits
        rw [ht] at hnext
        cases hnext
        rwa [Token.opensSequence_eq] at hopens

theorem opensTemplate_of_outside (hw : WellNested tokens position c)
    (hp : Layout.Permits tokens position c token) (hg : c.groups = []) :
    token.role.opensTemplate = true := by
  cases hc : token.isClosing with
  | true =>
    have hclosing := hp.2
    rw [Token.isClosing_eq] at hc
    cases hr : token.role with
    | plain | length | opening kind => simp [hr, TokenRole.isClosing] at hc
    | closing kind =>
      simp only [hr, hg] at hclosing
      simp at hclosing
  | false =>
    rw [← Token.opensTemplate_eq]
    exact hp.1 (hw.draft_outside hg) hc hg

/-- A plain token or a length stands inside a group, and no sequence is to be opened there. -/
theorem WellNested.inside (hw : WellNested tokens position c)
    (hpermits : Layout.Permits tokens position c token)
    (hfollows : followsLength tokens position = true → token.role.opensSequence = true)
    (hr : token.role = .plain ∨ token.role = .length) :
    c.groups ≠ [] ∧ followsLength tokens position = false := by
  have houtside := opensTemplate_of_outside hw hpermits
  constructor
  · intro hg
    rcases hr with hr | hr <;> simp [hr, TokenRole.opensTemplate, hg] at houtside
  · rcases hr with hr | hr <;> simpa [hr, TokenRole.opensSequence] using hfollows

theorem WellNested.opening {kind : GroupKind} (hw : WellNested tokens position c)
    (hpermits : Layout.Permits tokens position c token)
    (hfollows : followsLength tokens position = true → token.role.opensSequence = true)
    (ht : tokens[position]? = some token) (hr : token.role = .opening kind) :
    WellNested tokens (position + 1) (c.after offset position token) := by
  have houtside := opensTemplate_of_outside hw hpermits
  have hlength := followsLength_succ ht
  have hcount := hw.length_bodies
  have hrole := hpermits.2
  simp only [hr] at hrole
  rw [Context.after_of_opening _ _ _ _ hr]
  have hpending : followsLength tokens position = kind.sequence := by
    cases hs : kind.sequence with
    | true =>
      obtain ⟨length, hpos, hprev, hislength⟩ := hrole.1 hs
      obtain ⟨before, rfl⟩ : ∃ before, position = before + 1 := ⟨position - 1, by omega⟩
      simp only [Nat.add_sub_cancel] at hprev
      rw [followsLength_succ hprev, ← Token.isLength_eq, hislength]
    | false => simpa [hr, TokenRole.opensSequence, hs] using hfollows
  refine ⟨⟨?_, hw.nested⟩, by simp, by simp, ?_⟩
  · split
    · rename_i hg
      have htemplate : kind.template = true := by
        simpa [hr, TokenRole.opensTemplate] using houtside hg
      have hempty := hw.bodies_outside hg
      rw [hempty, hg, hpending] at hcount
      have hs : kind.sequence = false := by
        cases hs : kind.sequence with
        | true => simp [hs] at hcount
        | false => rfl
      cases kind
      simp_all
    · rename_i hg
      cases hk : kind.template with
      | true => exact absurd (hrole.2 hk) hg
      | false => rfl
  · simp only [hcount, hpending, hlength, hr, TokenRole.isLength, List.countP_cons]
    cases kind.sequence <;> simp

theorem WellNested.closing {kind : GroupKind} (hw : WellNested tokens position c)
    (hpermits : Layout.Permits tokens position c token)
    (hfollows : followsLength tokens position = true → token.role.opensSequence = true)
    (ht : tokens[position]? = some token) (hr : token.role = .closing kind) :
    WellNested tokens (position + 1) (c.after offset position token) := by
  have hlength := followsLength_succ ht
  have hcount := hw.length_bodies
  have hrole := hpermits.2
  simp only [hr] at hrole
  obtain ⟨⟨outer, hg⟩, hsequence⟩ := hrole
  have hnot : followsLength tokens position = false := by
    simpa [hr, TokenRole.opensSequence] using hfollows
  have hnested := hw.nested
  rw [hg] at hnested hcount
  rw [Context.after_of_closing _ _ _ _ hr, hg]
  simp only [List.tail_cons, hnot, List.countP_cons, Bool.toNat_false, Nat.add_zero] at hcount ⊢
  have hbodies : (if kind.sequence = true then c.bodies.tail else c.bodies).length =
      outer.countP GroupKind.sequence := by
    split
    · rename_i hs
      rw [List.length_tail, hcount, if_pos hs]
      rfl
    · rename_i hs
      rw [hcount, if_neg hs]
      rfl
  refine ⟨hnested.2, ?_, ?_, ?_⟩
  · intro houter
    obtain rfl : outer = [] := houter
    have hkind : kind = ⟨true, false⟩ := by simpa using hnested.1
    simp [hkind]
  · intro houter
    obtain rfl : outer = [] := houter
    exact List.eq_nil_of_length_eq_zero hbodies
  · simp only [hbodies, hlength, hr, TokenRole.isLength]
    rfl

theorem WellNested.step (hw : WellNested tokens position (contextAt offset tokens position))
    (hp : PermittedTo offset tokens (position + 1)) (ht : tokens[position]? = some token) :
    WellNested tokens (position + 1) (contextAt offset tokens (position + 1)) := by
  have hpermits := hp position (by omega) token ht
  have hfollows := fun hf => opensSequence_of_followsLength (fun i hi => hp i (by omega)) hf ht
  have hlength := followsLength_succ ht
  rw [contextAt_succ ht]
  cases hr : token.role with
  | plain =>
    obtain ⟨hinside, hnot⟩ := hw.inside hpermits hfollows (.inl hr)
    rw [Context.after_of_plain _ _ _ _ hr]
    exact ⟨hw.nested, fun hg => absurd hg hinside, fun hg => absurd hg hinside,
      by simp [hw.length_bodies, hnot, hlength, hr, TokenRole.isLength]⟩
  | length =>
    obtain ⟨hinside, hnot⟩ := hw.inside hpermits hfollows (.inr hr)
    rw [Context.after_of_length _ _ _ _ hr]
    exact ⟨hw.nested, fun hg => absurd hg hinside, fun hg => absurd hg hinside,
      by simp [hw.length_bodies, hnot, hlength, hr, TokenRole.isLength]⟩
  | opening kind => exact hw.opening hpermits hfollows ht hr
  | closing kind => exact hw.closing hpermits hfollows ht hr

theorem wellNested_contextAt (hle : position ≤ tokens.length)
    (hp : PermittedTo offset tokens position) :
    WellNested tokens position (contextAt offset tokens position) := by
  induction position with
  | zero => exact ⟨trivial, fun _ => rfl, fun _ => rfl, rfl⟩
  | succ position ih =>
    have ht : tokens[position]? = some tokens[position] := List.getElem?_eq_getElem (by omega)
    exact (ih (by omega) fun i hi => hp i (by omega)).step hp ht

end

end FragmentPipe
