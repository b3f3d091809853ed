import FragmentPipe.Schema.Declaration
import FragmentPipe.Proofs.Script.Nesting

set_option autoImplicit false

namespace FragmentPipe

namespace Schema

inductive Compiled : Schema → Prop where
  | script {s : Schema} {tokens : List Token} {names : List String} {offset : Int}
      (h : ofScript tokens names offset = .ok s) : Compiled s
  | fields {s : Schema} {fields : List (String × TokenKind)} (h : ofFields fields = .ok s) :
      Compiled s
  | declarations {s : Schema} {declarations : List Declaration}
      (h : ofDeclarations declarations = .ok s) : Compiled s

def context (s : Schema) (position : Nat) : Context := contextAt s.templateOffset s.tokens position

structure LaidOut (s : Schema) : Prop where
  placement : ∀ (p : Nat) (e : Entry), s.entries[p]? = some e →
    e.placement = ((s.context p).holder s.templateOffset p e.token).map fun draft =>
      ⟨draft.depth, draft.words⟩
  startsMessage : ∀ (p : Nat) (e : Entry), s.entries[p]? = some e →
    e.startsMessage = ((s.context p).draft.isNone && !e.token.isClosing &&
      (s.context p).groups.isEmpty)
  extent_isSome : ∀ (p : Nat) (e : Entry), s.entries[p]? = some e →
    (e.extent.isSome = true ↔ (s.context p).draft = none ∧ e.token.isClosing = false)
  extent : ∀ (p : Nat) (e : Entry) (held : FragmentDraft), s.entries[p]? = some e →
    (s.context p).holder s.templateOffset p e.token = some held →
    (s.context (p + 1)).draft = none ∨ p + 1 = s.size →
    ∃ first, s.entries[held.start]? = some first ∧
      first.extent = some ⟨held.words + e.token.words + 1, p + 1 - held.start⟩
  behind_length : ∀ (p : Nat) (e : Entry), s.entries[p]? = some e → e.token.role = .length →
    ∃ next, s.entries[p + 1]? = some next ∧ next.token.opensSequence = true
  sequenceEnd : ∀ (p : Nat) (e : Entry), s.entries[p]? = some e → e.token.role = .length →
    ∃ stop, e.sequenceEnd = some stop ∧ stop ≤ s.size ∧
      SequenceEnds s.templateOffset s.tokens p stop
  closing : ∀ (p : Nat) (e : Entry) (kind : GroupKind), s.entries[p]? = some e →
    e.token.role = .closing kind →
    (∃ outer, (s.context p).groups = kind :: outer ∧ (kind.template = true → outer = [])) ∧
      (kind.sequence = true → (s.context p).bodies ≠ [])
  outside : ∀ p ≤ s.size, (s.context p).groups = [] → (s.context p).bodies = []
  finished : (s.context s.size).groups = []

theorem getElem?_tokens (s : Schema) (p : Nat) : s.tokens[p]? = s.entries[p]?.map Entry.token := by
  simp [tokens]

theorem length_tokens (s : Schema) : s.tokens.length = s.size := by
  simp [tokens, size]

theorem context_succ (s : Schema) {p : Nat} {e : Entry} (h : s.entries[p]? = some e) :
    s.context (p + 1) = (s.context p).after s.templateOffset p e.token :=
  contextAt_succ (by rw [getElem?_tokens, h]; rfl)

theorem ofScript_ok {tokens : List Token} {names : List String} {offset : Int} {s : Schema}
    (h : ofScript tokens names offset = .ok s) :
    tokens ≠ [] ∧ (∀ token ∈ tokens, token.kind?.isSome = true) ∧
      ((tokens.any Token.isStructural = false ∧ s = flat offset (nameTokens tokens names)) ∨
        ∃ l, Layout.empty.steps offset (nameTokens tokens names) = .ok l ∧ l.groups = [] ∧
          s = ⟨l.entries, offset⟩) := by
  unfold ofScript at h
  split at h
  · cases h
  · rename_i hne
    split at h
    · cases h
    · rename_i hknown
      refine ⟨by simpa using hne, ?_, ?_⟩
      · intro token hmem
        obtain ⟨i, hi, rfl⟩ := List.mem_iff_getElem.1 hmem
        unfold firstUnknown? at hknown
        rw [Option.map_eq_none_iff, List.find?_eq_none] at hknown
        have := hknown (tokens[i], i) (by
          rw [List.mem_iff_getElem?]
          exact ⟨i, by simp [hi]⟩)
        rw [Option.isSome_iff_ne_none]
        simpa using this
      · split at h
        · right
          cases hs : Layout.empty.steps offset (nameTokens tokens names) with
          | error cause => simp [hs, bind, Except.bind] at h
          | ok l =>
            simp only [hs, bind, Except.bind] at h
            split at h
            · rename_i hg
              cases h
              exact ⟨l, rfl, by simpa using hg, rfl⟩
            · cases h
        · rename_i hflat
          cases h
          exact .inl ⟨by simpa using hflat, rfl⟩

section Bracketed

variable {tokens : List Token} {names : List String} {offset : Int} {l : Layout}

theorem sound_of_steps (h : Layout.empty.steps offset (nameTokens tokens names) = .ok l) :
    l.Sound offset tokens ∧ (⟨l.entries, offset⟩ : Schema).tokens = tokens := by
  have hrest : tokens.drop Layout.empty.entries.size = (nameTokens tokens names).map Prod.fst :=
    (map_fst_nameTokens tokens names).symm
  obtain ⟨hsound, hsize⟩ := Layout.sound_steps (Layout.sound_empty offset tokens) hrest h
  refine ⟨hsound, ?_⟩
  have hlength : (nameTokens tokens names).length = tokens.length := by
    rw [← List.length_map (f := Prod.fst), map_fst_nameTokens]
  apply List.ext_getElem?
  intro i
  rw [getElem?_tokens]
  cases he : l.entries[i]? with
  | some e => exact (hsound.token i e he).symm
  | none =>
    rw [Array.getElem?_eq_none_iff, hsize, hlength] at he
    have hsz : Layout.empty.entries.size = 0 := rfl
    exact (List.getElem?_eq_none (by omega)).symm

theorem context_of_steps (h : Layout.empty.steps offset (nameTokens tokens names) = .ok l) :
    l.context = contextAt offset tokens tokens.length := by
  obtain ⟨hsound, htokens⟩ := sound_of_steps h
  rw [hsound.context, ← htokens, length_tokens]
  rfl

theorem permittedTo_of_steps (h : Layout.empty.steps offset (nameTokens tokens names) = .ok l) :
    PermittedTo offset tokens tokens.length := by
  obtain ⟨hsound, htokens⟩ := sound_of_steps h
  intro i _ token ht
  rw [← htokens, getElem?_tokens] at ht
  obtain ⟨e, he, rfl⟩ := Option.map_eq_some_iff.1 ht
  exact hsound.permits i e he

theorem size_of_steps (h : Layout.empty.steps offset (nameTokens tokens names) = .ok l) :
    l.entries.size = tokens.length := by
  rw [← (sound_of_steps h).2, length_tokens]
  rfl

theorem wellNested_of_steps (h : Layout.empty.steps offset (nameTokens tokens names) = .ok l)
    {p : Nat} (hp : p ≤ l.entries.size) : WellNested tokens p (contextAt offset tokens p) := by
  rw [size_of_steps h] at hp
  exact wellNested_contextAt hp fun i hi => permittedTo_of_steps h i (Nat.lt_of_lt_of_le hi hp)

theorem draft_of_steps (h : Layout.empty.steps offset (nameTokens tokens names) = .ok l)
    (hg : l.groups = []) : l.draft = none := by
  have hend := (sound_of_steps h).1.context
  have hnone := (wellNested_of_steps h (Nat.le_refl _)).draft_outside
  rw [← hend] at hnone
  exact hnone hg

/-- A template is closed outside all groups. -/
theorem outer_of_template {position : Nat} {c : Context} {kind : GroupKind}
    {outer : List GroupKind} (hn : WellNested tokens position c) (houter : c.groups = kind :: outer)
    (ht : kind.template = true) : outer = [] := by
  have hkind := hn.nested
  rw [houter] at hkind
  have hinner := hkind.1
  split at hinner
  · assumption
  · rw [ht] at hinner
    cases hinner

theorem laidOut_of_steps (h : Layout.empty.steps offset (nameTokens tokens names) = .ok l)
    (hg : l.groups = []) : LaidOut ⟨l.entries, offset⟩ := by
  obtain ⟨hsound, htokens⟩ := sound_of_steps h
  have hcontext : ∀ p, (⟨l.entries, offset⟩ : Schema).context p = contextAt offset tokens p := by
    intro p
    unfold context
    rw [htokens]
  have hdraft := draft_of_steps h hg
  have hend := hsound.context
  have hgroups : (contextAt offset tokens l.entries.size).groups = [] := by
    rw [← hend]
    exact hg
  refine ⟨?_, ?_, ?_, ?_, ?_, ?_, ?_, ?_, ?_⟩ <;> simp only [hcontext]
  · exact hsound.placement
  · exact hsound.startsMessage
  · intro p e he
    rw [hsound.extent_isSome p e he]
    simp [hdraft]
  · intro p e held he hheld hlast
    apply hsound.extent p e held he hheld
    rcases hlast with hnone | hlast
    · exact hnone
    · rw [hlast]
      show (contextAt offset tokens l.entries.size).draft = none
      rw [← hend]
      exact hdraft
  · intro p e he hr
    have hpermits := (hsound.permits p e he).2
    simp only [hr] at hpermits
    obtain ⟨next, hnext, hopens⟩ := hpermits
    rw [← htokens, getElem?_tokens] at hnext
    obtain ⟨e', he', rfl⟩ := Option.map_eq_some_iff.1 hnext
    exact ⟨e', he', hopens⟩
  · intro p e he hr
    rw [htokens]
    rcases hsound.sequenceEnd p e he hr with hopen | hstop
    · rw [(wellNested_of_steps h (Nat.le_refl _)).bodies_outside hgroups] at hopen
      simp at hopen
    · exact hstop
  · intro p e kind he hr
    have hpermits := (hsound.permits p e he).2
    simp only [hr] at hpermits
    obtain ⟨⟨outer, houter⟩, hbodies⟩ := hpermits
    have hn := wellNested_of_steps h (Nat.le_of_lt (Array.getElem?_eq_some_iff.1 he).1)
    exact ⟨⟨outer, houter, outer_of_template hn houter⟩, hbodies⟩
  · exact fun p hp => (wellNested_of_steps h hp).bodies_outside
  · exact hgroups

end Bracketed

section Flat

variable {offset : Int} {script : List (Token × String)}

def wordsBefore : List (Token × String) → Nat → Int
  | [], _ | _ :: _, 0 => 0
  | item :: rest, position + 1 => item.1.words + wordsBefore rest position

theorem wordsBefore_zero (script : List (Token × String)) : wordsBefore script 0 = 0 := by
  cases script <;> rfl

theorem wordsBefore_succ {position : Nat} {item : Token × String}
    (h : script[position]? = some item) :
    wordsBefore script (position + 1) = wordsBefore script position + item.1.words := by
  induction script generalizing position with
  | nil => simp at h
  | cons first rest ih =>
    cases position with
    | zero =>
      cases h
      simp [wordsBefore, wordsBefore_zero]
    | succ position =>
      rw [wordsBefore, wordsBefore, ih h, Int.add_assoc]

theorem wordsBefore_length (script : List (Token × String)) (words : Int) :
    script.foldl (fun words item => words + (item.1.words : Int)) words =
      words + wordsBefore script script.length := by
  induction script generalizing words with
  | nil => simp [wordsBefore]
  | cons item rest ih =>
    rw [List.foldl_cons, ih, List.length_cons, wordsBefore, Int.add_assoc]

theorem getElem?_flatEntries (position : Nat) (words : Int) (script : List (Token × String))
    (i : Nat) :
    (flatEntries position words script)[i]? = script[i]?.map fun item =>
      { token := item.1
        name := item.2
        placement := some ⟨0, words + wordsBefore script i⟩
        extent := none
        sequenceEnd := none
        startsMessage := position + i == 0 } := by
  induction script generalizing position words i with
  | nil => rfl
  | cons item rest ih =>
    cases i with
    | zero => simp [flatEntries, wordsBefore]
    | succ i =>
      simp only [flatEntries, List.getElem?_cons_succ, ih]
      congr 1
      funext item'
      simp only [wordsBefore, Entry.mk.injEq, Option.some.injEq, Placement.mk.injEq, true_and]
      refine ⟨by omega, ?_⟩
      rw [show position + 1 + i = position + (i + 1) by omega]

theorem getElem?_flat (offset : Int) (script : List (Token × String)) (i : Nat) :
    (flat offset script).entries[i]? = script[i]?.map fun item =>
      { token := item.1
        name := item.2
        placement := some ⟨0, offset + 1 + wordsBefore script i⟩
        extent :=
          if i = 0 then some ⟨offset + 1 + wordsBefore script script.length + 1, script.length⟩
          else none
        sequenceEnd := none
        startsMessage := i == 0 } := by
  simp only [flat, Array.getElem?_modify, List.getElem?_toArray, getElem?_flatEntries,
    wordsBefore_length]
  by_cases hi : i = 0
  · subst hi
    simp only [↓reduceIte, Option.map_map]
    rfl
  · simp [hi, show ¬0 = i by omega]

theorem tokens_flat (offset : Int) (script : List (Token × String)) :
    (flat offset script).tokens = script.map Prod.fst := by
  apply List.ext_getElem?
  intro i
  rw [getElem?_tokens, getElem?_flat, Option.map_map, List.getElem?_map]
  rfl

section Plain

variable (hplain : ∀ item ∈ script, item.1.role = .plain) {p : Nat} {e : Entry}

include hplain in
theorem context_flat (hp : p ≤ script.length) :
    (flat offset script).context p =
      ⟨[], [], if p = 0 then none else some ⟨0, offset + 1 + wordsBefore script p, 0⟩⟩ := by
  induction p with
  | zero => rfl
  | succ p ih =>
    have hi : script[p]? = some script[p] := List.getElem?_eq_getElem (by omega)
    have hr : script[p].1.role = .plain := hplain _ (List.getElem_mem _)
    have he := getElem?_flat offset script p
    rw [hi, Option.map_some] at he
    rw [context_succ _ he, ih (by omega)]
    have hc : script[p].1.isClosing = false := Token.isClosing_of_role hr
    rw [Context.after_of_plain _ _ _ _ hr, wordsBefore_succ hi]
    by_cases hzero : p = 0
    · subst hzero
      simp [Context.holder, hc, flat, wordsBefore_zero]
    · simp [Context.holder, hzero]
      omega

variable (he : (flat offset script).entries[p]? = some e)

include hplain he

theorem role_flat : e.token.role = .plain ∧ p < script.length := by
  rw [getElem?_flat] at he
  obtain ⟨item, hitem, rfl⟩ := Option.map_eq_some_iff.1 he
  exact ⟨hplain item (List.mem_of_getElem? hitem), (List.getElem?_eq_some_iff.1 hitem).1⟩

theorem isClosing_flat : e.token.isClosing = false :=
  Token.isClosing_of_role (role_flat hplain he).1

theorem holder_flat : ((flat offset script).context p).holder offset p e.token =
    some ⟨0, offset + 1 + wordsBefore script p, 0⟩ := by
  rw [context_flat hplain (Nat.le_of_lt (role_flat hplain he).2)]
  by_cases hzero : p = 0
  · simp [Context.holder, hzero, isClosing_flat hplain he, wordsBefore_zero]
  · simp [Context.holder, hzero]

theorem startsMessage_flat :
    e.startsMessage = (((flat offset script).context p).draft.isNone && !e.token.isClosing &&
      ((flat offset script).context p).groups.isEmpty) := by
  rw [context_flat hplain (Nat.le_of_lt (role_flat hplain he).2), isClosing_flat hplain he]
  rw [getElem?_flat] at he
  obtain ⟨item, hitem, rfl⟩ := Option.map_eq_some_iff.1 he
  by_cases hzero : p = 0 <;> simp [hzero]

theorem extent_isSome_flat : e.extent.isSome = true ↔
    ((flat offset script).context p).draft = none ∧ e.token.isClosing = false := by
  rw [context_flat hplain (Nat.le_of_lt (role_flat hplain he).2), isClosing_flat hplain he]
  rw [getElem?_flat] at he
  obtain ⟨item, hitem, rfl⟩ := Option.map_eq_some_iff.1 he
  by_cases hzero : p = 0 <;> simp [hzero]

theorem extent_flat (hlast : ((flat offset script).context (p + 1)).draft = none ∨
      p + 1 = (flat offset script).size) :
    ∃ first, (flat offset script).entries[0]? = some first ∧
      first.extent = some ⟨offset + 1 + wordsBefore script p + e.token.words + 1, p + 1⟩ := by
  have hlt := (role_flat hplain he).2
  have hp : p + 1 = script.length := by
    rcases hlast with hnone | hlast
    · rw [context_flat hplain (by omega)] at hnone
      simp at hnone
    · rwa [size_flat] at hlast
  have hfirst : script[0]? = some script[0] := List.getElem?_eq_getElem (by omega)
  refine ⟨_, by rw [getElem?_flat, hfirst]; rfl, ?_⟩
  rw [getElem?_flat] at he
  obtain ⟨item, hitem, rfl⟩ := Option.map_eq_some_iff.1 he
  have hwords := wordsBefore_succ hitem
  rw [hp] at hwords
  simp only [↓reduceIte, hwords, hp, Option.some.injEq, Extent.mk.injEq, and_true]
  omega

end Plain

theorem laidOut_flat (hplain : ∀ item ∈ script, item.1.role = .plain) :
    LaidOut (flat offset script) where
  placement p e he := by
    rw [show (flat offset script).templateOffset = offset from rfl, holder_flat hplain he]
    rw [getElem?_flat] at he
    obtain ⟨item, -, rfl⟩ := Option.map_eq_some_iff.1 he
    rfl
  startsMessage p e he := startsMessage_flat hplain he
  extent_isSome p e he := extent_isSome_flat hplain he
  extent p e held he hheld hlast := by
    rw [show (flat offset script).templateOffset = offset from rfl, holder_flat hplain he] at hheld
    cases hheld
    exact extent_flat hplain he hlast
  behind_length p e he hr := by
    rw [(role_flat hplain he).1] at hr
    cases hr
  sequenceEnd p e he hr := by
    rw [(role_flat hplain he).1] at hr
    cases hr
  closing p e kind he hr := by
    rw [(role_flat hplain he).1] at hr
    cases hr
  outside p hp hg := by
    rw [size_flat] at hp
    rw [context_flat hplain hp]
  finished := by
    rw [size_flat, context_flat hplain (Nat.le_refl _)]

end Flat

theorem role_of_ofFields {fields : List (String × TokenKind)} {s : Schema}
    (h : ofFields fields = .ok s) :
    ∃ script, script ≠ [] ∧ (∀ item ∈ script, item.1.role = .plain) ∧ s = flat 0 script := by
  unfold ofFields at h
  split at h
  · cases h
  · rename_i hfields
    split at h
    · cases h
    · rename_i hne
      cases h
      refine ⟨_, by simpa using hne, ?_, rfl⟩
      intro item hitem
      obtain ⟨i, hi, rfl⟩ := List.mem_iff_getElem.1 hitem
      simp only [List.length_mapIdx] at hi
      simp only [List.getElem_mapIdx]
      have hfield : fields[i].2.isField = true := by
        unfold firstNonField? at hfields
        rw [List.findIdx?_eq_none_iff] at hfields
        simpa using hfields _ (List.getElem_mem hi)
      apply Token.role_of_not_structural
      cases hk : fields[i].2 <;> simp_all [Token.isStructural, Token.isGroup, Token.isLength,
        TokenKind.isField]

theorem flat_or_steps_of_ofScript {s : Schema} {tokens : List Token} {names : List String}
    {offset : Int} (h : ofScript tokens names offset = .ok s) :
    (∃ script, (∀ item ∈ script, item.1.role = .plain) ∧ s = flat offset script) ∨
      ∃ l, Layout.empty.steps offset (nameTokens tokens names) = .ok l ∧ l.groups = [] ∧
        s = ⟨l.entries, offset⟩ := by
  obtain ⟨-, -, ⟨hflat, rfl⟩ | hsteps⟩ := ofScript_ok h
  · refine .inl ⟨_, fun item hitem => ?_, rfl⟩
    apply Token.role_of_not_structural
    rw [List.any_eq_false] at hflat
    have hmem : item.1 ∈ tokens := by
      rw [← map_fst_nameTokens tokens names]
      exact List.mem_map_of_mem hitem
    simpa using hflat item.1 hmem
  · exact .inr hsteps

/-- A compiled schema is flat, or one pass over its script laid it. -/
theorem Compiled.flat_or_steps {s : Schema} (h : s.Compiled) :
    (∃ offset script, (∀ item ∈ script, item.1.role = .plain) ∧ s = flat offset script) ∨
      ∃ offset tokens names l, Layout.empty.steps offset (nameTokens tokens names) = .ok l ∧
        l.groups = [] ∧ s = ⟨l.entries, offset⟩ := by
  cases h with
  | script h | declarations h =>
    exact (flat_or_steps_of_ofScript h).imp (fun hflat => ⟨_, hflat⟩) fun hsteps =>
      ⟨_, _, _, hsteps⟩
  | fields h =>
    obtain ⟨script, -, hplain, rfl⟩ := role_of_ofFields h
    exact .inl ⟨0, script, hplain, rfl⟩

theorem tokens_of_ofScript {tokens : List Token} {names : List String} {offset : Int} {s : Schema}
    (h : ofScript tokens names offset = .ok s) : tokens ≠ [] ∧ s.tokens = tokens := by
  obtain ⟨hne, -, ⟨-, rfl⟩ | ⟨l, hsteps, -, rfl⟩⟩ := ofScript_ok h
  · exact ⟨hne, by rw [tokens_flat, map_fst_nameTokens]⟩
  · exact ⟨hne, (sound_of_steps hsteps).2⟩

theorem Compiled.size_pos {s : Schema} (h : s.Compiled) : 0 < s.size := by
  cases h with
  | script h | declarations h =>
    obtain ⟨hne, htokens⟩ := tokens_of_ofScript h
    rw [← length_tokens, htokens]
    exact List.length_pos_iff.2 hne
  | fields h =>
    obtain ⟨script, hne, -, rfl⟩ := role_of_ofFields h
    rw [← length_tokens, tokens_flat, List.length_map]
    exact List.length_pos_iff.2 hne

theorem Compiled.laidOut {s : Schema} (h : s.Compiled) : s.LaidOut := by
  rcases h.flat_or_steps with ⟨offset, script, hplain, rfl⟩ |
    ⟨offset, tokens, names, l, hsteps, hg, rfl⟩
  · exact laidOut_flat hplain
  · exact laidOut_of_steps hsteps hg

/-- A message with one sequence, on which the theorems are tried. -/
def book : Schema where
  entries := #[
    ⟨.build .group Token.templateBit 0, "Book", some ⟨0, 1⟩, some ⟨4, 3⟩, none, true⟩,
    ⟨.build (.value .integerSigned false) 0 1, "Venue", some ⟨0, 1⟩, none, none, false⟩,
    ⟨.build .sequenceLength 0 2, "Levels", some ⟨0, 2⟩, none, some 7, false⟩,
    ⟨.build .group Token.sequenceBit 3, "Levels", some ⟨1, 0⟩, some ⟨6, 4⟩, none, false⟩,
    ⟨.build (.value .decimal false) 0 4, "Price", some ⟨1, 0⟩, none, none, false⟩,
    ⟨.build (.value .byteArray false) 0 5, "Maker", some ⟨1, 3⟩, none, none, false⟩,
    ⟨.build .group (Token.sequenceBit + Token.closeBit) 6, "Levels", some ⟨1, 5⟩, none, none,
      false⟩,
    ⟨.build .group (Token.templateBit + Token.closeBit) 7, "Book", none, none, none, false⟩]
  templateOffset := 0

theorem compiled_book : book.Compiled :=
  have h : ofDeclarations [.beginMessage "Book", .field "Venue" (.value .integerSigned false),
      .beginSequence "Levels", .field "Price" (.value .decimal false),
      .field "Maker" (.value .byteArray false), .endSequence, .endMessage] = .ok book := rfl
  .declarations h

def tick (offset : Int) (kind : ValueKind) : Schema :=
  flat offset [(.build (.value kind false) 0 0, "Value")]

end Schema

end FragmentPipe
