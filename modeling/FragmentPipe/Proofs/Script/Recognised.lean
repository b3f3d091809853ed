import FragmentPipe.Proofs.Script.Unfolding

set_option autoImplicit false

/-!
# The scripts that compile

The pass checks a script token by token, each against what is open in front of it. Nothing else can
stop it: a script whose tokens are all permitted is passed to its end. The tokens of a tree are
permitted, one constructor after the other, and a permitted script that leaves nothing open is the
script of a tree. So the scripts that compile are those of a grammar.
-/
namespace FragmentPipe

namespace Layout

variable {offset : Int} {tokens : List Token} {token : Token} {name : String} {l : Layout}

theorem step_of_opens (hb : l.boundary = l.draft.isNone)
    (hopens : l.draft = none → token.isClosing = false → l.groups = [] →
      token.opensTemplate = true) (next : Option Token) :
    l.step offset next token name =
      match token.role with
      | .length => (l.laid offset token name).openLength l.entries.size next
      | .opening kind => (l.laid offset token name).openGroup l.entries.size l.previous? kind
      | .closing kind => (l.laid offset token name).closeGroup l.entries.size kind
      | .plain => .ok (l.laid offset token name) := by
  obtain ⟨begun, hbegun⟩ : ∃ begun, l.fragmentFor offset token = .ok begun := by
    unfold fragmentFor
    split
    · rename_i hboundary
      rw [hb, Bool.and_eq_true, Option.isNone_iff_eq_none, Bool.not_eq_true'] at hboundary
      have hallowed : (l.groups.isEmpty && !token.opensTemplate) = false := by
        cases hg : l.groups with
        | nil => simp [hopens hboundary.1 hboundary.2 hg]
        | cons kind outer => rfl
      simp only [hallowed]
      exact ⟨_, rfl⟩
    · exact ⟨_, rfl⟩
  obtain ⟨rfl, -⟩ := fragmentFor_ok hb hbegun
  unfold step
  simp only [hbegun, bind, Except.bind]
  rfl

/-- The pass stops at no token that is permitted. -/
theorem step_of_permits (hb : l.boundary = l.draft.isNone)
    (htokens : ∀ (i : Nat) (e : Entry), l.entries[i]? = some e → tokens[i]? = some e.token)
    (hp : Permits tokens l.entries.size l.context token) :
    ∃ l', l.step offset tokens[l.entries.size + 1]? token name = .ok l' := by
  obtain ⟨hopens, hrole⟩ := hp
  rw [step_of_opens hb hopens]
  cases hr : token.role with
  | plain => exact ⟨_, rfl⟩
  | length =>
    simp only [hr] at hrole
    obtain ⟨next, hnext, hopen⟩ := hrole
    simp [openLength, hnext, hopen]
  | opening kind =>
    simp only [hr] at hrole
    have hpaired : (kind.sequence && !l.previous?.any Token.isLength) = false := by
      cases hs : kind.sequence with
      | false => rfl
      | true =>
        obtain ⟨length, hpos, hprev, hislength⟩ := hrole.1 hs
        have hlast : l.entries[l.entries.size - 1]? = some l.entries[l.entries.size - 1] :=
          Array.getElem?_eq_getElem (by omega)
        rw [htokens _ _ hlast] at hprev
        cases hprev
        simp [previous?, Array.back?_eq_getElem?, hlast, hislength]
    have hinside : (kind.template && !l.groups.isEmpty) = false := by
      cases ht : kind.template with
      | false => rfl
      | true =>
        have hgroups : l.groups = [] := hrole.2 ht
        simp [hgroups]
    simp [openGroup, hpaired, hinside]
  | closing kind =>
    simp only [hr] at hrole
    obtain ⟨⟨outer, hgroups⟩, hbodies⟩ := hrole
    have hgroups : l.groups = kind :: outer := hgroups
    cases hs : kind.sequence with
    | false => cases ht : kind.template <;> simp [closeGroup, hgroups, hs, ht]
    | true =>
      cases hl : l.lengths with
      | nil => exact absurd (by simp [context, hl]) (hbodies hs)
      | cons length lengths => simp [closeGroup, hgroups, hs, hl]

theorem steps_of_permitted {script : List (Token × String)} (hl : l.Sound offset tokens)
    (hrest : tokens.drop l.entries.size = script.map Prod.fst)
    (hp : PermittedTo offset tokens tokens.length) : ∃ l', steps offset script l = .ok l' := by
  induction script generalizing l with
  | nil => exact ⟨l, rfl⟩
  | cons item rest ih =>
    obtain ⟨token, name⟩ := item
    have ht : tokens[l.entries.size]? = some token := getElem?_of_drop hrest
    have hnext : rest.head?.map Prod.fst = tokens[l.entries.size + 1]? := by
      rw [← List.head?_drop, drop_succ_of_drop hrest, List.head?_map]
    have hpermits := hp _ (List.getElem?_eq_some_iff.1 ht).1 token ht
    rw [← hl.context] at hpermits
    obtain ⟨next, hstep⟩ : ∃ next,
        l.step offset tokens[l.entries.size + 1]? token name = .ok next :=
      step_of_permits hl.boundary hl.token hpermits
    have hadv := step_advances hl.boundary hl.token hstep
    obtain ⟨l', hl'⟩ := ih (hl.advance hadv ht) (by rw [hadv.size, drop_succ_of_drop hrest])
    refine ⟨l', ?_⟩
    unfold steps
    rw [hnext, hstep]
    exact hl'

end Layout

/-- The bits of a token that the grammar looks at: its type, and of a group the operator bits for
close, template and sequence. Bit 31, the index and the other operator bits are left out. -/
def Token.bracketBits (token : Token) : Nat × Nat :=
  (token.code, if token.isGroup then token.operator % 8 else 0)

namespace Token

variable {token token' : Token}

theorem kind?_of_bracketBits (h : token.bracketBits = token'.bracketBits) :
    token.kind? = token'.kind? :=
  congrArg TokenKind.ofCode? (congrArg Prod.fst h)

theorem isStructural_of_bracketBits (h : token.bracketBits = token'.bracketBits) :
    token.isStructural = token'.isStructural := by
  rw [isStructural, isStructural, isGroup, isGroup, isLength, isLength, kind?_of_bracketBits h]

theorem role_of_bracketBits (h : token.bracketBits = token'.bracketBits) :
    token.role = token'.role := by
  have hkind := kind?_of_bracketBits h
  unfold role
  rw [hkind]
  cases hk : token'.kind? with
  | none => rfl
  | some kind =>
    cases kind with
    | value kind optional => rfl
    | sequenceLength => rfl
    | dictionary => rfl
    | group =>
      have hoperator : token.operator % 8 = token'.operator % 8 := by
        have hbits := congrArg Prod.snd h
        simpa [bracketBits, isGroup, hkind, hk] using hbits
      have hclose : token.hasClose = token'.hasClose := by
        unfold hasClose closeBit
        rw [show token.operator / 1 % 2 = token'.operator / 1 % 2 by omega]
      have htemplate : token.hasTemplate = token'.hasTemplate := by
        unfold hasTemplate templateBit
        rw [show token.operator / 2 % 2 = token'.operator / 2 % 2 by omega]
      have hsequence : token.hasSequence = token'.hasSequence := by
        unfold hasSequence sequenceBit
        rw [show token.operator / 4 % 2 = token'.operator / 4 % 2 by omega]
      simp only [groupKind, hclose, htemplate, hsequence]

end Token

/-- Tokens with the bracket bits of a body are those of a body. -/
theorem Body.exists_of_bracketBits (body : Body) {found : List Token}
    (h : found.map Token.bracketBits = body.tokens.map Token.bracketBits) :
    ∃ other : Body, other.tokens = found := by
  induction body generalizing found with
  | done => exact ⟨.done, (List.map_eq_nil_iff.1 h).symm⟩
  | plain token role rest ih =>
    obtain ⟨token', found', rfl, htoken, hrest⟩ := List.map_eq_cons_iff.1 h
    obtain ⟨rest', rfl⟩ := ih hrest
    exact ⟨.plain token' ((Token.role_of_bracketBits htoken).trans role) rest', rfl⟩
  | group opening closing opens closes inner rest hinner hrest =>
    simp only [tokens, List.map_cons, List.map_append] at h
    obtain ⟨opening', inside, rfl, hopening, hinside⟩ := List.map_eq_cons_iff.1 h
    obtain ⟨front, back, rfl, hfront, hback⟩ := List.map_eq_append_iff.1 hinside
    obtain ⟨closing', behind, rfl, hclosing, hbehind⟩ := List.map_eq_cons_iff.1 hback
    obtain ⟨inner', rfl⟩ := hinner hfront
    obtain ⟨rest', rfl⟩ := hrest hbehind
    exact ⟨.group opening' closing' ((Token.role_of_bracketBits hopening).trans opens)
      ((Token.role_of_bracketBits hclosing).trans closes) inner' rest', rfl⟩
  | sequence length opening closing counts opens closes inner rest hinner hrest =>
    simp only [tokens, List.map_cons, List.map_append] at h
    obtain ⟨length', counted, rfl, hlength, hcounted⟩ := List.map_eq_cons_iff.1 h
    obtain ⟨opening', inside, rfl, hopening, hinside⟩ := List.map_eq_cons_iff.1 hcounted
    obtain ⟨front, back, rfl, hfront, hback⟩ := List.map_eq_append_iff.1 hinside
    obtain ⟨closing', behind, rfl, hclosing, hbehind⟩ := List.map_eq_cons_iff.1 hback
    obtain ⟨inner', rfl⟩ := hinner hfront
    obtain ⟨rest', rfl⟩ := hrest hbehind
    exact ⟨.sequence length' opening' closing' ((Token.role_of_bracketBits hlength).trans counts)
      ((Token.role_of_bracketBits hopening).trans opens)
      ((Token.role_of_bracketBits hclosing).trans closes) inner' rest', rfl⟩

theorem Message.exists_of_bracketBits (m : Message) {found : List Token}
    (h : found.map Token.bracketBits = m.tokens.map Token.bracketBits) :
    ∃ other : Message, other.tokens = found := by
  simp only [tokens, List.map_cons, List.map_append] at h
  obtain ⟨opening', inside, rfl, hopening, hinside⟩ := List.map_eq_cons_iff.1 h
  obtain ⟨front, back, rfl, hfront, hback⟩ := List.map_eq_append_iff.1 hinside
  obtain ⟨closing', behind, rfl, hclosing, hbehind⟩ := List.map_eq_cons_iff.1 hback
  obtain ⟨body', rfl⟩ := m.body.exists_of_bracketBits hfront
  cases List.map_eq_nil_iff.1 hbehind
  exact ⟨⟨opening', closing', (Token.role_of_bracketBits hopening).trans m.opens,
    (Token.role_of_bracketBits hclosing).trans m.closes, body'⟩, rfl⟩

theorem exists_messages_of_bracketBits (messages : List Message) {found : List Token}
    (h : found.map Token.bracketBits =
      (messages.flatMap Message.tokens).map Token.bracketBits) :
    ∃ others : List Message, others.length = messages.length ∧
      found = others.flatMap Message.tokens := by
  induction messages generalizing found with
  | nil => exact ⟨[], rfl, List.map_eq_nil_iff.1 h⟩
  | cons m messages ih =>
    rw [List.flatMap_cons, List.map_append] at h
    obtain ⟨front, back, rfl, hfront, hback⟩ := List.map_eq_append_iff.1 h
    obtain ⟨m', rfl⟩ := m.exists_of_bracketBits hfront
    obtain ⟨others, hlength, rfl⟩ := ih hback
    exact ⟨m' :: others, by simp [hlength], by simp⟩

namespace Schema

section Trees

variable {s : Schema} {rest : List Token}

theorem permits_plain {p : Nat} {token : Token} (hg : (s.around p).groups ≠ [])
    (hr : token.role = .plain) : Layout.Permits s.tokens p (s.context p) token := by
  refine ⟨fun _ _ hnone => absurd hnone hg, ?_⟩
  rw [hr]
  trivial

theorem permits_length {p : Nat} {token next : Token} (hg : (s.around p).groups ≠ [])
    (hr : token.role = .length) (hnext : s.tokens[p + 1]? = some next)
    (hopens : next.opensSequence = true) : Layout.Permits s.tokens p (s.context p) token := by
  refine ⟨fun _ _ hnone => absurd hnone hg, ?_⟩
  rw [hr]
  exact ⟨next, hnext, hopens⟩

theorem permits_opening {p : Nat} {token : Token} {sequence : Bool}
    (hg : (s.around p).groups ≠ []) (hr : token.role = .opening ⟨false, sequence⟩)
    (hlength : sequence = true → ∃ length, 0 < p ∧ s.tokens[p - 1]? = some length ∧
      length.isLength = true) : Layout.Permits s.tokens p (s.context p) token := by
  refine ⟨fun _ _ hnone => absurd hnone hg, ?_⟩
  rw [hr]
  exact ⟨hlength, fun htemplate => absurd htemplate Bool.false_ne_true⟩

theorem permits_closing {p : Nat} {token : Token} {kind : GroupKind} {outer : List GroupKind}
    (hg : (s.around p).groups = kind :: outer) (hr : token.role = .closing kind)
    (hbodies : kind.sequence = true → (s.around p).bodies ≠ []) :
    Layout.Permits s.tokens p (s.context p) token := by
  refine ⟨fun _ _ hnone => absurd (hg.symm.trans hnone) (List.cons_ne_nil _ _), ?_⟩
  rw [hr]
  exact ⟨⟨outer, hg⟩, hbodies⟩

def PermittedOn (s : Schema) (p q : Nat) : Prop :=
  ∀ i, p ≤ i → i < q → ∀ token, s.tokens[i]? = some token →
    Layout.Permits s.tokens i (s.context i) token

theorem PermittedOn.cons {p q : Nat} {token : Token} (ht : s.tokens[p]? = some token)
    (hp : Layout.Permits s.tokens p (s.context p) token) (h : s.PermittedOn (p + 1) q) :
    s.PermittedOn p q := by
  intro i hle hlt found hfound
  by_cases hi : i = p
  · subst hi
    rw [ht] at hfound
    cases hfound
    exact hp
  · exact h i (by omega) hlt found hfound

theorem PermittedOn.append {p q r : Nat} (h : s.PermittedOn p q) (h' : s.PermittedOn q r) :
    s.PermittedOn p r := by
  intro i hle hlt token ht
  by_cases hi : i < q
  · exact h i hle hi token ht
  · exact h' i (by omega) hlt token ht

theorem permitted_body {body : Body} {p : Nat} (h : s.tokens.drop p = body.tokens ++ rest)
    (hg : (s.around p).groups ≠ []) : s.PermittedOn p (p + body.size) := by
  induction body generalizing p rest with
  | done =>
    intro i hle hlt
    rw [Body.size_done] at hlt
    omega
  | plain token role behind ih =>
    have ht := getElem?_of_drop h
    have hnext := around_of_plain (s := s) rfl ht role
    rw [Body.size_plain, show p + (behind.size + 1) = p + 1 + behind.size by omega]
    refine .cons ht (permits_plain hg role) (ih (drop_succ_of_drop h) ?_)
    rw [hnext]
    exact hg
  | group opening closing opens closes inner behind hinner hbehind =>
    simp only [Body.tokens, List.cons_append, List.append_assoc] at h
    obtain ⟨hopen, hclosing, hdrop, hafter⟩ := around_group h opens closes
    have hend := around_body (drop_succ_of_drop h) hopen
    rw [Body.size_group,
      show p + (inner.size + behind.size + 2) = p + 1 + inner.size + 1 + behind.size by omega]
    refine .cons (getElem?_of_drop h) (permits_opening hg opens
      fun hsequence => absurd hsequence Bool.false_ne_true) ?_
    refine .append (hinner (drop_succ_of_drop h) (by rw [hopen]; simp)) ?_
    refine .cons hclosing (permits_closing (by rw [hend]) closes
      fun hsequence => absurd hsequence Bool.false_ne_true) ?_
    exact hbehind hdrop (by rw [hafter]; exact hg)
  | sequence length opening closing counts opens closes inner behind hinner hbehind =>
    simp only [Body.tokens, List.cons_append, List.append_assoc] at h
    obtain ⟨hlength, hopen, hend, hclosing, hdrop, hafter⟩ := around_sequence h counts opens closes
    have hopening := getElem?_of_drop (drop_succ_of_drop h)
    rw [Body.size_sequence,
      show p + (inner.size + behind.size + 3) = p + 2 + inner.size + 1 + behind.size by omega]
    refine .cons (getElem?_of_drop h) (permits_length hg counts hopening ?_) ?_
    · rw [Token.opensSequence_eq, opens]
      rfl
    refine .cons hopening (permits_opening (by rw [hlength]; exact hg) opens fun _ => ?_) ?_
    · refine ⟨length, by omega, getElem?_of_drop h, ?_⟩
      rw [Token.isLength_eq, counts]
      rfl
    refine .append (hinner (drop_succ_of_drop (drop_succ_of_drop h)) (by rw [hopen]; simp)) ?_
    refine .cons hclosing (permits_closing (by rw [hend]) closes fun _ => by rw [hend]; simp) ?_
    exact hbehind hdrop (by rw [hafter]; exact hg)

theorem permitted_message {m : Message} {p : Nat} (h : s.tokens.drop p = m.tokens ++ rest)
    (hp : s.around p = ⟨[], [], none⟩) : s.PermittedOn p (p + m.tokens.length) := by
  simp only [Message.tokens, List.cons_append, List.append_assoc, List.nil_append] at h
  rw [m.length_tokens, show p + (m.body.size + 2) = p + 1 + m.body.size + 1 by omega]
  have hgroups : (s.context p).groups = [] := congrArg Surroundings.groups hp
  have hfirst := around_of_opening hp (getElem?_of_drop h) m.opens
  have hbody := drop_succ_of_drop h
  have hend := around_body hbody hfirst
  refine .cons (getElem?_of_drop h) ⟨fun _ _ _ => ?_, ?_⟩ ?_
  · rw [Token.opensTemplate_eq, m.opens]
    rfl
  · rw [m.opens]
    exact ⟨fun hsequence => absurd hsequence Bool.false_ne_true, fun _ => hgroups⟩
  refine .append (permitted_body hbody (by rw [hfirst]; simp)) ?_
  refine .cons (getElem?_of_drop (drop_body hbody)) (permits_closing (by rw [hend]) m.closes
    fun hsequence => absurd hsequence Bool.false_ne_true) ?_
  intro i hle hlt
  omega

/-- A row of messages is permitted, and it leaves nothing open. -/
theorem permitted_messages {messages : List Message} {p : Nat}
    (h : s.tokens.drop p = messages.flatMap Message.tokens)
    (hp : s.around p = ⟨[], [], none⟩) (hle : p ≤ s.size) :
    s.PermittedOn p s.size ∧ s.around s.size = ⟨[], [], none⟩ := by
  induction messages generalizing p with
  | nil =>
    have hend : p = s.size := by
      have := List.drop_eq_nil_iff.1 h
      rw [length_tokens] at this
      omega
    subst hend
    refine ⟨?_, hp⟩
    intro i hle hlt
    omega
  | cons m messages ih =>
    rw [List.flatMap_cons] at h
    have hsize : p + m.tokens.length ≤ s.size := by
      have hlength := congrArg List.length h
      rw [List.length_drop, length_tokens, List.length_append] at hlength
      omega
    obtain ⟨hrest, hend⟩ := ih (drop_add_of_drop h) (around_message h hp) hsize
    exact ⟨.append (permitted_message h hp) hrest, hend⟩

end Trees

structure Grammatical (tokens : List Token) : Prop where
  nonempty : tokens ≠ []
  known : ∀ token ∈ tokens, token.kind?.isSome = true
  shape : (∀ token ∈ tokens, token.isStructural = false) ∨
    ∃ messages : List Message, messages ≠ [] ∧ tokens = messages.flatMap Message.tokens

theorem Grammatical.of_bracketBits {tokens found : List Token} (h : Grammatical tokens)
    (hbits : found.map Token.bracketBits = tokens.map Token.bracketBits) : Grammatical found := by
  have hsame : ∀ token ∈ found, ∃ token' ∈ tokens, token.bracketBits = token'.bracketBits := by
    intro token hmem
    have himage : token.bracketBits ∈ tokens.map Token.bracketBits := by
      rw [← hbits]
      exact List.mem_map_of_mem hmem
    obtain ⟨token', hmem', heq⟩ := List.mem_map.1 himage
    exact ⟨token', hmem', heq.symm⟩
  refine ⟨?_, ?_, ?_⟩
  · rintro rfl
    exact h.nonempty (List.map_eq_nil_iff.1 hbits.symm)
  · intro token hmem
    obtain ⟨token', hmem', heq⟩ := hsame token hmem
    rw [Token.kind?_of_bracketBits heq]
    exact h.known token' hmem'
  · rcases h.shape with hflat | ⟨messages, hne, rfl⟩
    · left
      intro token hmem
      obtain ⟨token', hmem', heq⟩ := hsame token hmem
      rw [Token.isStructural_of_bracketBits heq]
      exact hflat token' hmem'
    · right
      obtain ⟨others, hlength, hfound⟩ := exists_messages_of_bracketBits messages hbits
      refine ⟨others, ?_, hfound⟩
      rintro rfl
      exact hne (List.eq_nil_of_length_eq_zero hlength.symm)

section Compiling

variable {tokens : List Token} {names : List String} {offset : Int} {s : Schema}

theorem ofScript_of_known (hne : tokens ≠ [])
    (hknown : ∀ token ∈ tokens, token.kind?.isSome = true) :
    ofScript tokens names offset =
      if tokens.any Token.isStructural then do
        let l ← Layout.empty.steps offset (nameTokens tokens names)
        if l.groups.isEmpty then .ok ⟨l.entries, offset⟩
        else .error (.unterminated l.groups.length)
      else .ok (flat offset (nameTokens tokens names)) := by
  have hunknown : firstUnknown? tokens = none := by
    unfold firstUnknown?
    rw [Option.map_eq_none_iff, List.find?_eq_none]
    intro item hitem
    have hmem : item.1 ∈ tokens := List.fst_mem_of_mem_zipIdx hitem
    simp [Option.isSome_iff_ne_none.1 (hknown item.1 hmem)]
  unfold ofScript
  rw [if_neg (by simpa using hne), hunknown]

theorem ofScript_of_messages {messages : List Message} (hne : tokens ≠ [])
    (hknown : ∀ token ∈ tokens, token.kind?.isSome = true)
    (hmessages : tokens = messages.flatMap Message.tokens) :
    ∃ s, ofScript tokens names offset = .ok s := by
  rw [ofScript_of_known hne hknown]
  split
  · let plain := flat offset (nameTokens tokens names)
    have htokens : plain.tokens = tokens := by rw [tokens_flat, map_fst_nameTokens]
    have hsize : plain.size = tokens.length := by rw [← length_tokens, htokens]
    have hdrop : plain.tokens.drop 0 = messages.flatMap Message.tokens := by
      rw [htokens]
      exact hmessages
    obtain ⟨hpermitted, hend⟩ := permitted_messages hdrop rfl (Nat.zero_le _)
    have hpermittedTo : PermittedTo offset tokens tokens.length := by
      intro i hi token ht
      have hpermits := hpermitted i (Nat.zero_le _) (by omega) token (by rw [htokens]; exact ht)
      rwa [context, htokens] at hpermits
    obtain ⟨l, hl⟩ := Layout.steps_of_permitted (Layout.sound_empty offset tokens)
      (map_fst_nameTokens tokens names).symm hpermittedTo
    have hgroups : l.groups = [] := by
      have hopen : (contextAt offset tokens tokens.length).groups = [] := by
        have hgroups := congrArg Surroundings.groups hend
        rwa [around, context, htokens, hsize] at hgroups
      rw [← context_of_steps hl] at hopen
      exact hopen
    exact ⟨⟨l.entries, offset⟩, by simp [hl, bind, Except.bind, hgroups]⟩
  · exact ⟨_, rfl⟩

theorem ofScript_of_grammatical (h : Grammatical tokens) :
    ∃ s, ofScript tokens names offset = .ok s := by
  rcases h.shape with hflat | ⟨messages, -, hmessages⟩
  · rw [ofScript_of_known h.nonempty h.known, if_neg (by simpa using hflat)]
    exact ⟨_, rfl⟩
  · exact ofScript_of_messages h.nonempty h.known hmessages

theorem grammatical_of_ofScript (h : ofScript tokens names offset = .ok s) :
    Grammatical tokens := by
  obtain ⟨hne, hknown, hlaid⟩ := ofScript_ok h
  refine ⟨hne, hknown, ?_⟩
  rcases hlaid with ⟨hflat, -⟩ | ⟨l, hl, hgroups, -⟩
  · exact .inl (by simpa using hflat)
  · have hopen : (contextAt offset tokens tokens.length).groups = [] := by
      rw [← context_of_steps hl]
      exact hgroups
    obtain ⟨messages, hmessages⟩ :=
      exists_messages (permittedTo_of_steps hl) hopen (p := 0) (Nat.zero_add _) rfl
    rw [List.drop_zero] at hmessages
    refine .inr ⟨messages, ?_, hmessages⟩
    rintro rfl
    exact hne hmessages

theorem compiles_iff : (∃ s, ofScript tokens names offset = .ok s) ↔ Grammatical tokens :=
  ⟨fun ⟨_, h⟩ => grammatical_of_ofScript h, ofScript_of_grammatical⟩

/-- Where a message of a row begins its opening stands, and that stands nowhere else. -/
theorem isMessageStart_of_steps {l : Layout}
    (hl : Layout.empty.steps offset (nameTokens tokens names) = .ok l) (hgroups : l.groups = [])
    (p : Nat) : (⟨l.entries, offset⟩ : Schema).isMessageStart p =
      tokens[p]?.any fun token => token.role == .opening ⟨true, false⟩ := by
  obtain ⟨-, htokens⟩ := sound_of_steps hl
  have hpermitted := permittedTo_of_steps hl
  have hcontext : (⟨l.entries, offset⟩ : Schema).context p = contextAt offset tokens p := by
    rw [context, htokens]
  rw [← htokens, getElem?_tokens]
  cases he : l.entries[p]? with
  | none => simp [isMessageStart, at?, he]
  | some e =>
    have ht : tokens[p]? = some e.token := by
      rw [← htokens, getElem?_tokens, he]
      rfl
    have hlt : p < tokens.length := (List.getElem?_eq_some_iff.1 ht).1
    rw [isMessageStart_eq (laidOut_of_steps hl hgroups) he, hcontext]
    simp only [Option.map_some, Option.any_some]
    cases hg : (contextAt offset tokens p).groups with
    | nil =>
      have hrole := opens_message hpermitted ht hg
      have hdraft := (wellNested_contextAt (Nat.le_of_lt hlt) fun i hi =>
        hpermitted i (by omega)).draft_outside hg
      simp [hdraft, hrole, Token.isClosing_of_role hrole, TokenRole.isClosing]
    | cons kind outer =>
      have hinside : e.token.role ≠ .opening ⟨true, false⟩ := by
        intro hrole
        have hpermits := (hpermitted p hlt e.token ht).2
        simp only [hrole, hg] at hpermits
        cases hpermits.2 trivial
      simp [hinside]

theorem isStructural_of_steps {l : Layout}
    (hl : Layout.empty.steps offset (nameTokens tokens names) = .ok l) (hne : tokens ≠ []) :
    tokens.any Token.isStructural = true := by
  obtain ⟨token, rest, rfl⟩ := List.exists_cons_of_ne_nil hne
  have hrole := opens_message (permittedTo_of_steps hl) (p := 0) rfl rfl
  rw [List.any_cons, Bool.or_eq_true]
  left
  cases hstructural : token.isStructural with
  | true => rfl
  | false =>
    rw [Token.role_of_not_structural hstructural] at hrole
    cases hrole

theorem messageStarts_flat {script : List (Token × String)} (hne : script ≠ []) :
    (flat offset script).messageStarts = [0] := by
  obtain ⟨item, rest, rfl⟩ := List.exists_cons_of_ne_nil hne
  have hstarts : ∀ p < rest.length + 1,
      (flat offset (item :: rest)).isMessageStart (p : Nat) = (p == 0) := by
    intro p hp
    have hitem : (item :: rest)[p]? = some (item :: rest)[p] := List.getElem?_eq_getElem _
    simp [isMessageStart, at?, getElem?_flat, hitem]
  unfold messageStarts
  rw [size_flat, List.length_cons, List.filter_congr fun p hp => hstarts p (List.mem_range.1 hp),
    List.range_succ_eq_map]
  simp [List.filter_map]

/-- The scripts that compile are those of the grammar, whatever their names and their offset. Which
ones they are depends on the bracket bits alone. The messages of a script begin where a template is
opened, and a script without brackets begins its one message at its first token. -/
theorem compiles_grammar (tokens : List Token) (names : List String) (offset : Int) :
    ((∃ s, ofScript tokens names offset = .ok s) ↔ Grammatical tokens) ∧
      (∀ found names' offset', found.map Token.bracketBits = tokens.map Token.bracketBits →
        ((∃ s, ofScript found names' offset' = .ok s) ↔
          ∃ s, ofScript tokens names offset = .ok s)) ∧
      ∀ s, ofScript tokens names offset = .ok s → s.messageStarts =
        if tokens.any Token.isStructural then
          (List.range tokens.length).filter fun p =>
            tokens[p]?.any fun token => token.role == .opening ⟨true, false⟩
        else [0] := by
  refine ⟨compiles_iff, ?_, ?_⟩
  · intro found names' offset' hbits
    rw [compiles_iff, compiles_iff]
    exact ⟨fun h => h.of_bracketBits hbits.symm, fun h => h.of_bracketBits hbits⟩
  · intro s hs
    obtain ⟨hne, -, ⟨hflat, rfl⟩ | ⟨l, hl, hgroups, rfl⟩⟩ := ofScript_ok hs
    · rw [hflat]
      refine messageStarts_flat fun hnil => hne ?_
      rw [← map_fst_nameTokens tokens names, hnil, List.map_nil]
    · have hsize : (⟨l.entries, offset⟩ : Schema).size = tokens.length := by
        rw [← length_tokens, (sound_of_steps hl).2]
      rw [if_pos (isStructural_of_steps hl hne), messageStarts, hsize]
      exact List.filter_congr fun p _ => isMessageStart_of_steps hl hgroups p

end Compiling

end Schema

end FragmentPipe
