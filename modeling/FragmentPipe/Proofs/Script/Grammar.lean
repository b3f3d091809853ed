import FragmentPipe.Proofs.Script.Compiled

set_option autoImplicit false

/-!
# Scripts as trees

What a script means is read off its brackets: a message encloses a body, and a body is a row of
plain tokens, plain groups and counted sequences. Every compiled schema has such a tree, so what
walks over its tables can be compared with a recursion over the tree.
-/
namespace FragmentPipe

/-- What stands between an opening and its close. A constructor only takes tokens of its roles. -/
inductive Body where
  | done
  | plain (token : Token) (role : token.role = .plain) (rest : Body)
  | group (opening closing : Token) (opens : opening.role = .opening ⟨false, false⟩)
      (closes : closing.role = .closing ⟨false, false⟩) (inner rest : Body)
  | sequence (length opening closing : Token) (counts : length.role = .length)
      (opens : opening.role = .opening ⟨false, true⟩)
      (closes : closing.role = .closing ⟨false, true⟩) (inner rest : Body)

def Body.tokens : Body → List Token
  | .done => []
  | .plain token _ rest => token :: rest.tokens
  | .group opening closing _ _ inner rest =>
    opening :: (inner.tokens ++ closing :: rest.tokens)
  | .sequence length opening closing _ _ _ inner rest =>
    length :: opening :: (inner.tokens ++ closing :: rest.tokens)

def Body.size (body : Body) : Nat := body.tokens.length

@[simp] theorem Body.size_done : Body.done.size = 0 := rfl

@[simp] theorem Body.size_plain (token : Token) (role : token.role = .plain) (rest : Body) :
    (Body.plain token role rest).size = rest.size + 1 := rfl

@[simp] theorem Body.size_group (opening closing : Token)
    (opens : opening.role = .opening ⟨false, false⟩)
    (closes : closing.role = .closing ⟨false, false⟩) (inner rest : Body) :
    (Body.group opening closing opens closes inner rest).size = inner.size + rest.size + 2 := by
  simp only [size, tokens, List.length_cons, List.length_append]
  omega

@[simp] theorem Body.size_sequence (length opening closing : Token) (counts : length.role = .length)
    (opens : opening.role = .opening ⟨false, true⟩)
    (closes : closing.role = .closing ⟨false, true⟩) (inner rest : Body) :
    (Body.sequence length opening closing counts opens closes inner rest).size =
      inner.size + rest.size + 3 := by
  simp only [size, tokens, List.length_cons, List.length_append]
  omega

structure Message where
  opening : Token
  closing : Token
  opens : opening.role = .opening ⟨true, false⟩
  closes : closing.role = .closing ⟨true, false⟩
  body : Body

def Message.tokens (m : Message) : List Token := m.opening :: (m.body.tokens ++ [m.closing])

theorem Message.length_tokens (m : Message) : m.tokens.length = m.body.size + 2 := by
  simp only [tokens, Body.size, List.length_cons, List.length_append, List.length_nil]

/-- A script is one message without brackets, or a row of bracketed messages. -/
inductive Script where
  | flat (tokens : List Token) (roles : ∀ token ∈ tokens, token.role = .plain)
  | bracketed (messages : List Message)

def Script.tokens : Script → List Token
  | .flat tokens _ => tokens
  | .bracketed messages => messages.flatMap Message.tokens

section Suffixes

variable {α : Type} {l rest : List α} {p : Nat} {a : α}

theorem getElem?_of_drop (h : l.drop p = a :: rest) : l[p]? = some a := by
  have hhead : (l.drop p)[0]? = some a := by rw [h]; rfl
  simpa using hhead

theorem drop_succ_of_drop (h : l.drop p = a :: rest) : l.drop (p + 1) = rest := by
  rw [← List.drop_drop, h]
  rfl

theorem drop_add_of_drop {front : List α} (h : l.drop p = front ++ rest) :
    l.drop (p + front.length) = rest := by
  rw [← List.drop_drop, h, List.drop_left]

theorem drop_body {tokens rest : List Token} {body : Body}
    (h : tokens.drop p = body.tokens ++ rest) : tokens.drop (p + body.size) = rest :=
  drop_add_of_drop h

theorem drop_of_getElem? (h : l[p]? = some a) : l.drop p = a :: l.drop (p + 1) := by
  obtain ⟨hp, rfl⟩ := List.getElem?_eq_some_iff.1 h
  exact List.drop_eq_getElem_cons hp

end Suffixes

section Groups

variable {offset : Int} {tokens : List Token} {p : Nat} {token : Token}

theorem groups_contextAt_succ (offset : Int) (h : tokens[p]? = some token) :
    (contextAt offset tokens (p + 1)).groups =
      match token.role with
      | .opening kind => kind :: (contextAt offset tokens p).groups
      | .closing _ => (contextAt offset tokens p).groups.tail
      | _ => (contextAt offset tokens p).groups := by
  rw [contextAt_succ h, Context.after]
  cases token.role <;> rfl

/-- From a position on the script goes on as a body up to the close of a group. -/
def EndsAs (offset : Int) (tokens : List Token) (p : Nat) (kind : GroupKind)
    (outer : List GroupKind) : Prop :=
  ∃ body closing rest, tokens.drop p = Body.tokens body ++ closing :: rest ∧
    closing.role = .closing kind ∧ (contextAt offset tokens (p + body.size + 1)).groups = outer

section Ends

variable {kind inside : GroupKind} {outer : List GroupKind}

theorem EndsAs.plain (h : EndsAs offset tokens (p + 1) kind outer) (ht : tokens[p]? = some token)
    (hr : token.role = .plain) : EndsAs offset tokens p kind outer := by
  obtain ⟨body, closing, rest, hbody, hclosing, houter⟩ := h
  refine ⟨.plain token hr body, closing, rest, ?_, hclosing, ?_⟩
  · rw [drop_of_getElem? ht, hbody]
    rfl
  · rw [← houter]
    congr 2
    rw [Body.size_plain]
    omega

theorem EndsAs.closing (ht : tokens[p]? = some token) (hr : token.role = .closing kind)
    (hgroups : (contextAt offset tokens p).groups = kind :: outer) :
    EndsAs offset tokens p kind outer := by
  have hnext := groups_contextAt_succ offset ht
  rw [hr, hgroups] at hnext
  exact ⟨.done, token, tokens.drop (p + 1), drop_of_getElem? ht, hr, hnext⟩

theorem EndsAs.followed (h : EndsAs offset tokens p inside (kind :: outer))
    (hrest : ∀ q, p < q → q ≤ tokens.length → followsLength tokens q = false →
      (contextAt offset tokens q).groups = kind :: outer → EndsAs offset tokens q kind outer) :
    ∃ inner closing body last rest,
      tokens.drop p = Body.tokens inner ++ closing :: (Body.tokens body ++ last :: rest) ∧
        closing.role = .closing inside ∧ last.role = .closing kind ∧
        (contextAt offset tokens (p + inner.size + 1 + body.size + 1)).groups = outer := by
  obtain ⟨inner, closing, behind, hinner, hclosing, hafter⟩ := h
  have hclose := drop_body hinner
  have hsize : p + inner.size < tokens.length :=
    (List.getElem?_eq_some_iff.1 (getElem?_of_drop hclose)).1
  have hbehind := followsLength_succ (getElem?_of_drop hclose)
  rw [hclosing] at hbehind
  obtain ⟨body, last, rest, hbody, hlast, houter⟩ := hrest _ (by omega) hsize hbehind hafter
  refine ⟨inner, closing, body, last, rest, ?_, hclosing, hlast, houter⟩
  rw [hinner, ← drop_succ_of_drop hclose]
  exact congrArg (fun behind => inner.tokens ++ closing :: behind) hbody

theorem template_of_permits (hpermits : Layout.Permits tokens p (contextAt offset tokens p) token)
    (hr : token.role = .opening inside)
    (hgroups : (contextAt offset tokens p).groups = kind :: outer) : inside.template = false := by
  have hopens := hpermits.2
  simp only [hr, hgroups] at hopens
  cases hk : inside.template with
  | false => rfl
  | true => cases hopens.2 hk

theorem sequence_of_permits (hpermits : Layout.Permits tokens p (contextAt offset tokens p) token)
    (hr : token.role = .opening inside) (hfollows : followsLength tokens p = false) :
    inside.sequence = false := by
  have hopens := hpermits.2
  simp only [hr] at hopens
  cases hs : inside.sequence with
  | false => rfl
  | true =>
    obtain ⟨length, hpos, hprev, hislength⟩ := hopens.1 hs
    obtain ⟨before, rfl⟩ : ∃ before, p = before + 1 := ⟨p - 1, by omega⟩
    simp only [Nat.add_sub_cancel] at hprev
    simp [followsLength, hprev, hislength] at hfollows

theorem opening_behind_length (hp : PermittedTo offset tokens tokens.length)
    (ht : tokens[p]? = some token) (hr : token.role = .length)
    (hgroups : (contextAt offset tokens (p + 1)).groups = kind :: outer) :
    ∃ opening, tokens[p + 1]? = some opening ∧ opening.role = .opening ⟨false, true⟩ := by
  have hlt : p < tokens.length := (List.getElem?_eq_some_iff.1 ht).1
  have hpermits := (hp p hlt token ht).2
  simp only [hr] at hpermits
  obtain ⟨opening, hopening, hopens⟩ := hpermits
  have hlt' := (List.getElem?_eq_some_iff.1 hopening).1
  refine ⟨opening, hopening, ?_⟩
  rw [Token.opensSequence_eq] at hopens
  cases hrole : opening.role with
  | plain | length | closing found => simp [hrole, TokenRole.opensSequence] at hopens
  | opening inside =>
    have htemplate := template_of_permits (hp (p + 1) hlt' opening hopening) hrole hgroups
    simp only [hrole, TokenRole.opensSequence] at hopens
    cases inside
    simp_all

theorem EndsAs.group (h : EndsAs offset tokens (p + 1) ⟨false, false⟩ (kind :: outer))
    (ht : tokens[p]? = some token) (hr : token.role = .opening ⟨false, false⟩)
    (hrest : ∀ q, p < q → q ≤ tokens.length → followsLength tokens q = false →
      (contextAt offset tokens q).groups = kind :: outer → EndsAs offset tokens q kind outer) :
    EndsAs offset tokens p kind outer := by
  obtain ⟨inner, closing, body, last, rest, hbody, hclosing, hlast, houter⟩ :=
    h.followed fun q hq => hrest q (by omega)
  refine ⟨.group token closing hr hclosing inner body, last, rest, ?_, hlast, ?_⟩
  · rw [drop_of_getElem? ht, hbody]
    simp [Body.tokens]
  · rw [← houter]
    congr 2
    rw [Body.size_group]
    omega

theorem EndsAs.sequence {opening : Token}
    (h : EndsAs offset tokens (p + 2) ⟨false, true⟩ (kind :: outer))
    (ht : tokens[p]? = some token) (hr : token.role = .length)
    (hopening : tokens[p + 1]? = some opening) (hrole : opening.role = .opening ⟨false, true⟩)
    (hrest : ∀ q, p < q → q ≤ tokens.length → followsLength tokens q = false →
      (contextAt offset tokens q).groups = kind :: outer → EndsAs offset tokens q kind outer) :
    EndsAs offset tokens p kind outer := by
  obtain ⟨inner, closing, body, last, rest, hbody, hclosing, hlast, houter⟩ :=
    h.followed fun q hq => hrest q (by omega)
  refine ⟨.sequence token opening closing hr hrole hclosing inner body, last, rest, ?_, hlast, ?_⟩
  · rw [drop_of_getElem? ht, drop_of_getElem? hopening, hbody]
    simp [Body.tokens]
  · rw [← houter]
    congr 2
    rw [Body.size_sequence]
    omega

end Ends

/-- Inside a group the script goes on as a body up to the close of the group. -/
theorem exists_body (hp : PermittedTo offset tokens tokens.length)
    (hend : (contextAt offset tokens tokens.length).groups = []) {left : Nat} {kind : GroupKind}
    {outer : List GroupKind} (hleft : p + left = tokens.length)
    (hfollows : followsLength tokens p = false)
    (hgroups : (contextAt offset tokens p).groups = kind :: outer) :
    EndsAs offset tokens p kind outer := by
  induction left using Nat.strongRecOn generalizing p kind outer with
  | ind left ih =>
    have hlater : ∀ {kind outer} (q : Nat), p < q → q ≤ tokens.length →
        followsLength tokens q = false → (contextAt offset tokens q).groups = kind :: outer →
        EndsAs offset tokens q kind outer :=
      fun q hpq hq => ih (tokens.length - q) (by omega) (by omega)
    cases ht : tokens[p]? with
    | none =>
      have hlast : p = tokens.length := by
        have := List.getElem?_eq_none_iff.1 ht
        omega
      rw [hlast, hend] at hgroups
      cases hgroups
    | some token =>
      have hlt : p < tokens.length := (List.getElem?_eq_some_iff.1 ht).1
      have hpermits := hp p hlt token ht
      have hnext := groups_contextAt_succ offset ht
      have hlength := followsLength_succ ht
      cases hr : token.role with
      | plain =>
        rw [hr] at hnext hlength
        exact (hlater (p + 1) (Nat.lt_succ_self p) hlt hlength (hnext.trans hgroups)).plain ht hr
      | closing found =>
        have hcloses := hpermits.2
        simp only [hr, hgroups] at hcloses
        obtain ⟨⟨others, hsame⟩, -⟩ := hcloses
        cases hsame
        exact .closing ht hr hgroups
      | opening inside =>
        have htemplate := template_of_permits hpermits hr hgroups
        have hsequence := sequence_of_permits hpermits hr hfollows
        obtain rfl : inside = ⟨false, false⟩ := by
          cases inside
          simp_all
        rw [hr, hgroups] at hnext
        rw [hr] at hlength
        exact (hlater (p + 1) (Nat.lt_succ_self p) hlt hlength hnext).group ht hr hlater
      | length =>
        rw [hr] at hnext
        obtain ⟨opening, hopening, hrole⟩ :=
          opening_behind_length hp ht hr (hnext.trans hgroups)
        have hlt' := (List.getElem?_eq_some_iff.1 hopening).1
        have hinside := groups_contextAt_succ offset hopening
        have hfollows' := followsLength_succ hopening
        rw [hrole, hnext, hgroups] at hinside
        rw [hrole] at hfollows'
        exact (hlater (p + 2) (by omega) hlt' hfollows' hinside).sequence ht hr hopening hrole
          hlater

theorem opens_message (hp : PermittedTo offset tokens tokens.length) (ht : tokens[p]? = some token)
    (hgroups : (contextAt offset tokens p).groups = []) :
    token.role = .opening ⟨true, false⟩ := by
  have hlt : p < tokens.length := (List.getElem?_eq_some_iff.1 ht).1
  have hwell := wellNested_contextAt (Nat.le_of_lt hlt) fun i hi => hp i (by omega)
  have hopens := opensTemplate_of_outside hwell (hp p hlt token ht) hgroups
  cases hr : token.role with
  | plain | length | closing kind => simp [hr, TokenRole.opensTemplate] at hopens
  | opening kind =>
    have hnext := groups_contextAt_succ offset ht
    rw [hr, hgroups] at hnext
    have hnested := (wellNested_contextAt (show p + 1 ≤ tokens.length from hlt) fun i hi =>
      hp i (by omega)).nested
    rw [hnext] at hnested
    rw [show kind = ⟨true, false⟩ by simpa using hnested.1]

/-- Outside every group the script goes on as a row of messages. -/
theorem exists_messages (hp : PermittedTo offset tokens tokens.length)
    (hend : (contextAt offset tokens tokens.length).groups = []) {left : Nat}
    (hleft : p + left = tokens.length) (hgroups : (contextAt offset tokens p).groups = []) :
    ∃ messages : List Message, tokens.drop p = messages.flatMap Message.tokens := by
  induction left using Nat.strongRecOn generalizing p with
  | ind left ih =>
    cases ht : tokens[p]? with
    | none => exact ⟨[], List.drop_eq_nil_of_le (List.getElem?_eq_none_iff.1 ht)⟩
    | some token =>
      have hlt : p < tokens.length := (List.getElem?_eq_some_iff.1 ht).1
      have hr := opens_message hp ht hgroups
      have hnext := groups_contextAt_succ offset ht
      have hlength := followsLength_succ ht
      rw [hr, hgroups] at hnext
      rw [hr] at hlength
      obtain ⟨body, closing, rest, hbody, hclosing, houter⟩ :=
        exists_body hp hend (show p + 1 + (left - 1) = tokens.length by omega) hlength hnext
      have hclose := drop_body hbody
      have hsize : p + 1 + body.size < tokens.length :=
        (List.getElem?_eq_some_iff.1 (getElem?_of_drop hclose)).1
      obtain ⟨messages, hmessages⟩ := ih (left - 1 - body.size - 1) (by omega)
        (p := p + 1 + body.size + 1) (by omega) houter
      refine ⟨⟨token, closing, hr, hclosing, body⟩ :: messages, ?_⟩
      rw [drop_of_getElem? ht, hbody, ← drop_succ_of_drop hclose, hmessages]
      simp [Message.tokens]

end Groups

/-- Every compiled schema is the layout of a script with a tree. -/
theorem Schema.Compiled.exists_script {s : Schema} (h : s.Compiled) :
    ∃ script, Script.tokens script = s.tokens := by
  rcases h.flat_or_steps with ⟨offset, script, hplain, rfl⟩ |
    ⟨offset, tokens, names, l, hsteps, hg, rfl⟩
  · refine ⟨.flat (script.map Prod.fst) ?_, (tokens_flat offset script).symm⟩
    intro token htoken
    obtain ⟨item, hitem, rfl⟩ := List.mem_map.1 htoken
    exact hplain item hitem
  · have hend : (contextAt offset tokens tokens.length).groups = [] := by
      rw [← context_of_steps hsteps]
      exact hg
    obtain ⟨messages, hmessages⟩ :=
      exists_messages (permittedTo_of_steps hsteps) hend (p := 0) (Nat.zero_add _) rfl
    refine ⟨.bracketed messages, ?_⟩
    rw [(sound_of_steps hsteps).2]
    exact hmessages.symm

end FragmentPipe
