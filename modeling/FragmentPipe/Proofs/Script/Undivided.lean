import FragmentPipe.Pipe.Read
import FragmentPipe.Proofs.Script.Accepted
import FragmentPipe.Proofs.Script.Recognised

set_option autoImplicit false

namespace FragmentPipe

namespace Schema

/-- One message, which is one fragment of so many words. Its last token leads nowhere but behind the
script. -/
structure Undivided (s : Schema) (words : Int) : Prop where
  startsMessage : ∀ (p : Nat) (e : Entry), s.entries[p]? = some e → e.startsMessage = decide (p = 0)
  extent : ∀ (p : Nat) (e : Entry), s.entries[p]? = some e →
    e.extent = if p = 0 then some ⟨words, s.size⟩ else none
  depth : ∀ (p : Nat) (e : Entry), s.entries[p]? = some e → e.depth? = some 0
  last : ∃ e, s.entries[s.size - 1]? = some e ∧ e.token.isLength = false ∧
    e.token.closesSequence = false

def whole (s : Schema) (words : Int) : Fragment := ⟨0, distance words, s.size, 0, true⟩

namespace Undivided

variable {s : Schema} {words : Int} (h : s.Undivided words)

include h

theorem size_pos : 0 < s.size := by
  obtain ⟨e, he, -⟩ := h.last
  have := lt_size_of_getElem? he
  omega

theorem exists_first : ∃ e, s.entries[0]? = some e := exists_entry h.size_pos

theorem fragment?_eq (position : Int) :
    s.fragment? position = if position = 0 then some (s.whole words) else none := by
  cases position with
  | negSucc n => rfl
  | ofNat n =>
    rw [Int.ofNat_eq_natCast]
    cases he : s.entries[n]? with
    | none =>
      have hn : (n : Int) ≠ 0 := by
        rintro hn
        obtain rfl : n = 0 := by omega
        obtain ⟨e, hfirst⟩ := h.exists_first
        rw [he] at hfirst
        cases hfirst
      rw [if_neg hn]
      simp [fragment?, at?, he]
    | some e =>
      rw [fragment?_ofNat he, h.extent n e he, h.depth n e he, h.startsMessage n e he]
      by_cases hn : n = 0
      · subst hn
        rfl
      · rw [if_neg hn, if_neg (by omega)]
        rfl

theorem isMessageStart_eq (position : Int) : s.isMessageStart position = decide (position = 0) := by
  cases position with
  | negSucc n => rfl
  | ofNat n =>
    show s.entries[n]?.any Entry.startsMessage = _
    cases he : s.entries[n]? with
    | none =>
      obtain ⟨e, hfirst⟩ := h.exists_first
      have hn : n ≠ 0 := by
        rintro rfl
        rw [he] at hfirst
        cases hfirst
      simpa using hn
    | some e => simp [h.startsMessage n e he]

theorem isFragmentStart_eq (position : Int) :
    s.isFragmentStart position = decide (position = 0) := by
  rw [← isSome_fragment?, h.fragment?_eq]
  by_cases hposition : position = 0
  · simp [hposition]
  · simp [hposition]

theorem lastOf?_whole : ∃ e, s.lastOf? (s.whole words) = some (s.size - 1, e) ∧
    e.token.isLength = false ∧ e.token.closesSequence = false := by
  obtain ⟨e, he, hlength, hcloses⟩ := h.last
  refine ⟨e, ?_, hlength, hcloses⟩
  unfold lastOf? whole
  simp only [Nat.zero_add, he, Option.map_some]

theorem maxFragmentDepth_eq : s.maxFragmentDepth = 1 := by
  have hshallow : ∀ (entries : List Entry), (∀ e ∈ entries, e.depth? = some 0) →
      entries.foldl (fun deepest e => max deepest (e.depth?.getD 0)) 0 = 0 := by
    intro entries hall
    induction entries with
    | nil => rfl
    | cons e rest ih =>
      rw [List.foldl_cons, hall e List.mem_cons_self]
      exact ih fun e he => hall e (List.mem_cons_of_mem _ he)
  unfold maxFragmentDepth
  rw [← Array.foldl_toList, hshallow]
  intro e he
  obtain ⟨p, hp⟩ := List.mem_iff_getElem?.1 he
  exact h.depth p e (by simpa using hp)

theorem fragmentWords_eq {p : Nat} {e : Entry} (he : s.entries[p]? = some e) :
    e.fragmentWords = if p = 0 then words else 0 := by
  unfold Entry.fragmentWords
  rw [h.extent p e he]
  split <;> rfl

theorem maxFragmentWords_eq (hwords : 0 ≤ words) : s.maxFragmentWords = words := by
  obtain ⟨first, hfirst⟩ := h.exists_first
  have hhead := h.fragmentWords_eq hfirst
  rw [if_pos rfl] at hhead
  unfold maxFragmentWords
  split
  · rw [hfirst, Option.map_some, Option.getD_some, hhead]
  · rw [← Array.foldl_toList]
    have hle := (le_foldl_fragmentWords s.entries.toList 0).2 first
      (List.mem_of_getElem? (by simpa using hfirst))
    have hall : ∀ e ∈ s.entries.toList, e.fragmentWords < words + 1 := by
      intro e he
      obtain ⟨p, hp⟩ := List.mem_iff_getElem?.1 he
      have hthere := h.fragmentWords_eq (p := p) (e := e) (by simpa using hp)
      split at hthere <;> omega
    have hlt := foldl_fragmentWords_lt s.entries.toList 0 (by omega) hall
    omega

end Undivided

section Flat

variable {offset : Int} {script : List (Token × String)}

theorem wordsBefore_nonneg (script : List (Token × String)) (position : Nat) :
    0 ≤ wordsBefore script position := by
  induction script generalizing position with
  | nil => exact Int.le_refl _
  | cons item rest ih =>
    cases position with
    | zero => exact Int.le_refl _
    | succ position =>
      have := ih position
      rw [wordsBefore]
      omega

def wordsOf (offset : Int) (script : List (Token × String)) : Int :=
  offset + 1 + wordsBefore script script.length + 1

theorem wordsOf_nonneg (hoffset : 0 ≤ offset) (script : List (Token × String)) :
    0 ≤ wordsOf offset script := by
  have := wordsBefore_nonneg script script.length
  unfold wordsOf
  omega

theorem undivided_flat (hne : script ≠ []) (hplain : ∀ item ∈ script, item.1.role = .plain) :
    (flat offset script).Undivided (wordsOf offset script) := by
  have hfound : ∀ (p : Nat) (e : Entry), (flat offset script).entries[p]? = some e →
      e.startsMessage = decide (p = 0) ∧
        e.extent = (if p = 0 then some ⟨wordsOf offset script, (flat offset script).size⟩
          else none) ∧ e.depth? = some 0 ∧ e.token.role = .plain := by
    intro p e he
    rw [getElem?_flat] at he
    obtain ⟨item, hitem, rfl⟩ := Option.map_eq_some_iff.1 he
    rw [size_flat]
    exact ⟨by simp [Bool.beq_eq_decide_eq], rfl, rfl, hplain item (List.mem_of_getElem? hitem)⟩
  have hpos : 0 < (flat offset script).size := by
    rw [size_flat]
    exact List.length_pos_iff.2 hne
  obtain ⟨e, he⟩ := exists_entry (Nat.sub_lt hpos Nat.one_pos)
  have hrole := (hfound _ e he).2.2.2
  exact ⟨fun p e he => (hfound p e he).1, fun p e he => (hfound p e he).2.1,
    fun p e he => (hfound p e he).2.2.1, e, he, Token.isLength_of_role hrole,
    Token.closesSequence_of_role hrole⟩

end Flat

end Schema

theorem Token.kind?_of_bracket {token : Token} {kind : GroupKind}
    (h : token.role = .opening kind ∨ token.role = .closing kind) : token.kind? = some .group := by
  unfold Token.role at h
  cases hkind : token.kind? with
  | none => simp [hkind] at h
  | some found => cases found <;> simp_all

namespace Schema

/-- The tokens are those of a script without brackets between the opening and the close of a
template. -/
structure Brackets (s : Schema) (script : List (Token × String)) (opening closing : Token) :
    Prop where
  laidOut : s.LaidOut
  tokens : s.tokens = opening :: (script.map Prod.fst ++ [closing])
  opens : opening.role = .opening ⟨true, false⟩
  closes : closing.role = .closing ⟨true, false⟩
  plain : ∀ item ∈ script, item.1.role = .plain

namespace Brackets

variable {s : Schema} {script : List (Token × String)} {opening closing : Token}
  (h : s.Brackets script opening closing)

include h

theorem size_eq : s.size = script.length + 2 := by
  rw [← length_tokens, h.tokens]
  simp

theorem words_opening : opening.words = 0 := by
  rw [Token.words, Token.kind?_of_bracket (.inl h.opens)]
  rfl

theorem words_closing : closing.words = 0 := by
  rw [Token.words, Token.kind?_of_bracket (.inr h.closes)]
  rfl

theorem getElem?_inside {i : Nat} (hi : i < script.length) :
    s.tokens[i + 1]? = some script[i].1 := by
  rw [h.tokens, List.getElem?_cons_succ, List.getElem?_append_left (by simpa using hi)]
  simp [hi]

theorem exists_closing : ∃ e, s.entries[script.length + 1]? = some e ∧ e.token = closing := by
  have hclosing : s.tokens[script.length + 1]? = some closing := by
    rw [h.tokens, List.getElem?_cons_succ, List.getElem?_append_right (by simp)]
    simp
  rw [getElem?_tokens] at hclosing
  obtain ⟨e, he, htoken⟩ := Option.map_eq_some_iff.1 hclosing
  exact ⟨e, he, htoken⟩

theorem context_inside {i : Nat} (hi : i ≤ script.length) :
    s.context (i + 1) = ⟨[⟨true, false⟩], [],
      some ⟨0, s.templateOffset + 1 + wordsBefore script i, 0⟩⟩ := by
  induction i with
  | zero =>
    have hfirst : s.tokens[0]? = some opening := by
      rw [h.tokens]
      rfl
    have hopen : opening.isClosing = false := Token.isClosing_of_role h.opens
    rw [context_succ_of_tokens hfirst, Context.after_of_opening _ _ _ _ h.opens,
      wordsBefore_zero, Context.holder_of_none _ _ _ _ rfl, hopen, h.words_opening]
    simp [context, contextAt, Context.outside]
  | succ i ih =>
    have hitem : script[i]? = some script[i] := List.getElem?_eq_getElem (by omega)
    rw [context_succ_of_tokens (h.getElem?_inside (by omega)),
      Context.after_of_plain _ _ _ _ (h.plain _ (List.getElem_mem _)), ih (by omega),
      Context.holder_of_some _ _ _ _ rfl, wordsBefore_succ hitem, ← Int.add_assoc]
    rfl

theorem heldAt_inside {i : Nat} (hi : i ≤ script.length) :
    s.heldAt (i + 1) = some ⟨0, s.templateOffset + 1 + wordsBefore script i, 0⟩ := by
  have hsize := h.size_eq
  exact heldAt_of_draft (by omega) (by rw [h.context_inside hi])

theorem isClosing_first {e : Entry} (he : s.entries[0]? = some e) : e.token.isClosing = false := by
  have hfirst : s.tokens[0]? = some opening := by
    rw [h.tokens]
    rfl
  rw [getElem?_tokens, he] at hfirst
  cases hfirst
  exact Token.isClosing_of_role h.opens

theorem placement_inside {i : Nat} {e : Entry} (he : s.entries[i + 1]? = some e) :
    e.placement = some ⟨0, s.templateOffset + 1 + wordsBefore script i⟩ := by
  have hlt := lt_size_of_getElem? he
  have hsize := h.size_eq
  rw [placement_eq h.laidOut he, h.heldAt_inside (by omega)]
  rfl

theorem startsMessage {p : Nat} {e : Entry} (he : s.entries[p]? = some e) :
    e.startsMessage = decide (p = 0) := by
  have hlt := lt_size_of_getElem? he
  have hsize := h.size_eq
  rw [h.laidOut.startsMessage p e he]
  cases p with
  | zero =>
    rw [h.isClosing_first he]
    rfl
  | succ i =>
    rw [h.context_inside (by omega)]
    rfl

theorem extent {p : Nat} {e : Entry} (he : s.entries[p]? = some e) :
    e.extent = if p = 0 then some ⟨wordsOf s.templateOffset script, s.size⟩ else none := by
  have hlt := lt_size_of_getElem? he
  have hsize := h.size_eq
  cases p with
  | zero =>
    obtain ⟨final, hfinal, htoken⟩ := h.exists_closing
    have hheld := h.heldAt_inside (Nat.le_refl _)
    rw [heldAt_eq hfinal] at hheld
    obtain ⟨first, hfirst, hextent⟩ := h.laidOut.extent _ final _ hfinal hheld (.inr hsize.symm)
    rw [he] at hfirst
    cases hfirst
    rw [hextent, htoken, h.words_closing, if_pos rfl, hsize]
    simp [wordsOf]
  | succ i =>
    rw [if_neg (Nat.succ_ne_zero i), ← Option.not_isSome_iff_eq_none,
      h.laidOut.extent_isSome _ e he, h.context_inside (by omega)]
    simp

theorem undivided : s.Undivided (wordsOf s.templateOffset script) where
  startsMessage := fun _ _ he => h.startsMessage he
  extent := fun _ _ he => h.extent he
  depth := fun p e he => by
    have hlt := lt_size_of_getElem? he
    have hsize := h.size_eq
    rw [Entry.depth?]
    cases p with
    | zero =>
      rw [placement_eq h.laidOut he, heldAt_eq he, Context.holder_of_none _ _ _ _ rfl,
        h.isClosing_first he]
      rfl
    | succ i =>
      rw [h.placement_inside he]
      rfl
  last := by
    obtain ⟨e, he, htoken⟩ := h.exists_closing
    refine ⟨e, by rw [h.size_eq]; exact he, ?_, ?_⟩
    · rw [htoken, Token.isLength_of_role h.closes]
      rfl
    · rw [htoken, Token.closesSequence_of_role h.closes]
      rfl

end Brackets

end Schema

def Body.ofPlain : (tokens : List Token) → (∀ token ∈ tokens, token.role = .plain) → Body
  | [], _ => .done
  | token :: rest, roles =>
    .plain token (roles token List.mem_cons_self)
      (ofPlain rest fun token htoken => roles token (List.mem_cons_of_mem _ htoken))

section Plain

variable {tokens : List Token} (roles : ∀ token ∈ tokens, token.role = .plain)

theorem Body.tokens_ofPlain : (Body.ofPlain tokens roles).tokens = tokens := by
  induction tokens with
  | nil => rfl
  | cons token rest ih => exact congrArg _ (ih _)

theorem Body.draft_ofPlain (position start : Nat) :
    (Body.ofPlain tokens roles).draft position (some start) = some start := by
  induction tokens generalizing position with
  | nil => rfl
  | cons token rest ih => exact ih _ _

theorem Body.unfold_ofPlain (lengths : Nat → Nat) (position : Nat) (draft : Option Nat)
    (visited : List Nat) :
    (Body.ofPlain tokens roles).unfold lengths position draft visited = visited := by
  induction tokens generalizing position draft with
  | nil => rfl
  | cons token rest ih => exact ih _ _ _

end Plain

def Message.ofPlain {opening closing : Token} (opens : opening.role = .opening ⟨true, false⟩)
    (closes : closing.role = .closing ⟨true, false⟩) (tokens : List Token)
    (roles : ∀ token ∈ tokens, token.role = .plain) : Message :=
  ⟨opening, closing, opens, closes, .ofPlain tokens roles⟩

namespace Schema

/-- The tables of one schema are those of another with a token in front and one behind. -/
structure Wraps (t s : Schema) : Prop where
  size : t.size = s.size + 2
  fragmentWords : t.entries[0]?.map Entry.fragmentWords = s.entries[0]?.map Entry.fragmentWords
  markerWords : t.markerWords = s.markerWords
  maxFragmentWords : t.maxFragmentWords = s.maxFragmentWords
  maxFragmentDepth : t.maxFragmentDepth = s.maxFragmentDepth
  locator : ∀ i < s.size, ∃ loc, s.locator? i = some loc ∧ t.locator? (i + 1) = some loc
  fragmentStart : ∀ position, s.isFragmentStart position = decide (position = 0) ∧
    t.isFragmentStart position = decide (position = 0)
  messageStart : ∀ position, s.isMessageStart position = decide (position = 0) ∧
    t.isMessageStart position = decide (position = 0)
  validate : ∀ config : Config, config.validate t = config.validate s

section Wrapping

variable {tokens : List Token} {names : List String} {offset : Int} {opening closing : Token}

theorem ofScript_of_plain (hne : tokens ≠ []) (hknown : ∀ token ∈ tokens, token.kind?.isSome = true)
    (hplain : ∀ token ∈ tokens, token.isStructural = false) :
    ofScript tokens names offset = .ok (flat offset (nameTokens tokens names)) := by
  rw [ofScript_of_known hne hknown, if_neg (by simpa using hplain)]

theorem role_of_nameTokens (hplain : ∀ token ∈ tokens, token.isStructural = false) :
    ∀ item ∈ nameTokens tokens names, item.1.role = .plain := by
  intro item hitem
  apply Token.role_of_not_structural
  apply hplain
  rw [← map_fst_nameTokens tokens names]
  exact List.mem_map_of_mem hitem

/-- The general pass takes what stands between the brackets as one fragment. -/
theorem exists_brackets (names names' : List String) (offset : Int)
    (hknown : ∀ token ∈ tokens, token.kind?.isSome = true)
    (hplain : ∀ token ∈ tokens, token.isStructural = false)
    (hopens : opening.role = .opening ⟨true, false⟩)
    (hcloses : closing.role = .closing ⟨true, false⟩) :
    ∃ t, ofScript (opening :: (tokens ++ [closing])) names' offset = .ok t ∧
      t.templateOffset = offset ∧ t.Brackets (nameTokens tokens names) opening closing := by
  have hroles : ∀ token ∈ tokens, token.role = .plain :=
    fun token htoken => Token.role_of_not_structural (hplain token htoken)
  have hgrammatical : Grammatical (opening :: (tokens ++ [closing])) := by
    refine ⟨List.cons_ne_nil _ _, fun token htoken => ?_,
      .inr ⟨[.ofPlain hopens hcloses tokens hroles], List.cons_ne_nil _ _, ?_⟩⟩
    · simp only [List.mem_cons, List.mem_append, List.not_mem_nil, or_false] at htoken
      rcases htoken with rfl | htoken | rfl
      · rw [Token.kind?_of_bracket (.inl hopens)]
        rfl
      · exact hknown token htoken
      · rw [Token.kind?_of_bracket (.inr hcloses)]
        rfl
    · simp [Message.tokens, Message.ofPlain, Body.tokens_ofPlain]
  obtain ⟨t, ht⟩ := ofScript_of_grammatical hgrammatical
  refine ⟨t, ht, ?_, (Compiled.script ht).laidOut, ?_, hopens, hcloses, role_of_nameTokens hplain⟩
  · obtain ⟨-, -, ⟨-, rfl⟩ | ⟨l, -, -, rfl⟩⟩ := ofScript_ok ht <;> rfl
  · rw [(tokens_of_ofScript ht).2, map_fst_nameTokens]

theorem Brackets.exists_locator {t : Schema} {script : List (Token × String)}
    (h : t.Brackets script opening closing) (i : Nat)
    (hi : i < (flat t.templateOffset script).size) :
    ∃ loc, (flat t.templateOffset script).locator? i = some loc ∧
      t.locator? (i + 1) = some loc := by
  rw [size_flat] at hi
  have hsize := h.size_eq
  obtain ⟨e, he⟩ : ∃ e, t.entries[i + 1]? = some e := exists_entry (by omega)
  have hitem : script[i]? = some script[i] := List.getElem?_eq_getElem hi
  refine ⟨⟨0, ((t.templateOffset + 1 + wordsBefore script i) % 0x100000000).toNat⟩, ?_, ?_⟩
  · rw [locator?, getElem?_flat, hitem]
    rfl
  · rw [locator?, he, Option.bind_some, Entry.locator?, h.placement_inside he]
    rfl

theorem Brackets.wraps {t : Schema} {script : List (Token × String)} (hne : script ≠ [])
    (h : t.Brackets script opening closing) (hoffset : 0 ≤ t.templateOffset) :
    t.Wraps (flat t.templateOffset script) := by
  have hflat : (flat t.templateOffset script).Undivided (wordsOf t.templateOffset script) :=
    undivided_flat hne h.plain
  have hwords := wordsOf_nonneg hoffset script
  have hmax : t.maxFragmentWords = (flat t.templateOffset script).maxFragmentWords := by
    rw [h.undivided.maxFragmentWords_eq hwords, hflat.maxFragmentWords_eq hwords]
  refine ⟨?_, ?_, rfl, hmax, ?_, fun i hi => ?_, fun position => ?_, fun position => ?_,
    fun config => ?_⟩
  · rw [h.size_eq, size_flat]
  · obtain ⟨first, hfirst⟩ := h.undivided.exists_first
    obtain ⟨first', hfirst'⟩ := hflat.exists_first
    rw [hfirst, hfirst', Option.map_some, Option.map_some, h.undivided.fragmentWords_eq hfirst,
      hflat.fragmentWords_eq hfirst']
  · rw [h.undivided.maxFragmentDepth_eq, hflat.maxFragmentDepth_eq]
  · exact h.exists_locator i hi
  · exact ⟨hflat.isFragmentStart_eq position, h.undivided.isFragmentStart_eq position⟩
  · exact ⟨hflat.isMessageStart_eq position, h.undivided.isMessageStart_eq position⟩
  · unfold Config.validate Config.largestFor
    rw [hmax]
    rfl

end Wrapping

end Schema

end FragmentPipe
