import FragmentPipe.Proofs.Script.Accepted

set_option autoImplicit false

namespace FragmentPipe

theorem bodies_contextAt (offset : Int) (tokens : List Token) (position : Nat) :
    (contextAt offset tokens position).bodies.Pairwise (· > ·) ∧
      ∀ body ∈ (contextAt offset tokens position).bodies, body ≤ position := by
  induction position with
  | zero => exact ⟨.nil, nofun⟩
  | succ position ih =>
    obtain ⟨hordered, hle⟩ := ih
    cases ht : tokens[position]? with
    | none =>
      simp only [contextAt, ht]
      exact ⟨hordered, fun body hbody => Nat.le_succ_of_le (hle body hbody)⟩
    | some token =>
      have hkept : ∀ body ∈ (contextAt offset tokens position).bodies, body ≤ position + 1 :=
        fun body hbody => Nat.le_succ_of_le (hle body hbody)
      rw [bodies_contextAt_succ offset ht]
      cases token.role with
      | plain => exact ⟨hordered, hkept⟩
      | opening kind => exact ⟨hordered, hkept⟩
      | length =>
        refine ⟨.cons (fun body hbody => Nat.lt_succ_of_le (hle body hbody)) hordered, ?_⟩
        intro body hbody
        rcases List.mem_cons.1 hbody with rfl | hbody
        · exact Nat.le_refl _
        · exact hkept body hbody
      | closing kind =>
        simp only
        split
        · exact ⟨hordered.tail, fun body hbody => hkept body (List.mem_of_mem_tail hbody)⟩
        · exact ⟨hordered, hkept⟩

/-- Until it ends, a sequence stays open. -/
theorem SequenceEnds.suffix {offset : Int} {tokens : List Token} {length stop q : Nat}
    {token : Token} (h : SequenceEnds offset tokens length stop)
    (ht : tokens[length]? = some token) (hr : token.role = .length) (hlt : length < q)
    (hq : q < stop) :
    (length + 1) :: (contextAt offset tokens length).bodies <:+
      (contextAt offset tokens q).bodies := by
  obtain ⟨gap, rfl⟩ : ∃ gap, q = length + 1 + gap := ⟨q - length - 1, by omega⟩
  induction gap with
  | zero =>
    have hentered := bodies_contextAt_succ offset ht
    rw [hr] at hentered
    exact hentered ▸ List.suffix_refl _
  | succ gap ih =>
    have hdeeper := h.2.2.2 (length + 1 + (gap + 1)) (by omega) hq
    rw [← Nat.add_assoc] at hdeeper ⊢
    cases hnext : tokens[length + 1 + gap]? with
    | none =>
      simp only [contextAt, hnext]
      exact ih (by omega) (by omega)
    | some next =>
      have hbefore := ih (by omega) (by omega)
      rw [bodies_contextAt_succ offset hnext] at hdeeper ⊢
      cases hrole : next.role with
      | plain => exact hbefore
      | opening kind => exact hbefore
      | length => exact hbefore.trans (List.suffix_cons _ _)
      | closing kind =>
        simp only [hrole] at hdeeper ⊢
        split at hdeeper
        · -- The innermost sequence ends here, and it is not this one: something deeper is left.
          rename_i hs
          rw [if_pos hs]
          obtain ⟨inner, hinner⟩ := hbefore
          cases inner with
          | nil =>
            rw [← hinner] at hdeeper
            simp at hdeeper
          | cons body inner =>
            rw [← hinner]
            exact ⟨inner, rfl⟩
        · rename_i hs
          rw [if_neg hs]
          exact hbefore

namespace Schema

inductive Part where
  | preamble
  | id
  | token (position : Nat)
  | trailer
deriving DecidableEq, Repr

def Occupies (s : Schema) (start : Nat) (extent : Extent) : Part → Int → Prop
  | .preamble, word => s.isMessageStart start = true ∧ 0 ≤ word ∧ word < s.templateOffset
  | .id, word => s.isMessageStart start = true ∧ word = s.templateOffset
  | .token position, word => start ≤ position ∧ position < start + extent.tokens ∧
      ∃ e place, s.entries[position]? = some e ∧ e.placement = some place ∧
        place.offset ≤ word ∧ word < place.offset + e.token.words
  | .trailer, word => word = extent.words - 1

/-- Where the words of a fragment begin: at 0, or at the id where that lies in front. -/
def lowestWord (s : Schema) (start : Nat) : Int :=
  if s.isMessageStart start then min 0 s.templateOffset else 0

/-- The length tokens of the sequences that are open at a position: they stand before it, and the
close of the sequence stands there or later. -/
def lengthsAround (s : Schema) (position : Nat) : List Nat :=
  (List.range position).filter fun length =>
    s.entries[length]?.any fun e => e.token.isLength && e.sequenceEnd.any (position < ·)

def FragmentAt (s : Schema) (start : Nat) (first : Entry) (extent : Extent) : Prop :=
  s.entries[start]? = some first ∧ first.extent = some extent

def Ends (s : Schema) (position : Nat) (e : Entry) : Prop :=
  e.token.role = .length ∨
    (∃ kind, e.token.role = .closing kind ∧ (kind.sequence = true ∨ kind.template = true)) ∨
    (s.isSimple = true ∧ position + 1 = s.size)

/-- The sequence whose length token stands at a position is a tree, and `stop` is just past it. -/
def ClosesAt (s : Schema) (position stop : Nat) : Prop :=
  ∃ (length opening closing : Token) (inner : Body) (rest : List Token),
    length.role = .length ∧ opening.role = .opening ⟨false, true⟩ ∧
      closing.role = .closing ⟨false, true⟩ ∧
      s.tokens.drop position = length :: opening :: (inner.tokens ++ closing :: rest) ∧
      stop = position + inner.size + 3

structure Partitioned (s : Schema) : Prop where
  run : ∀ start first extent, s.FragmentAt start first extent →
    0 < extent.tokens ∧ start + extent.tokens ≤ s.size
  disjoint : ∀ start first extent start' first' extent', s.FragmentAt start first extent →
    s.FragmentAt start' first' extent' → start < start' → start + extent.tokens ≤ start'
  covered : ∀ (p : Nat) (e : Entry), s.entries[p]? = some e → (e.placement.isSome = true ↔
    ∃ start first extent, s.FragmentAt start first extent ∧ start ≤ p ∧ p < start + extent.tokens)
  between : ∀ (p : Nat) (e : Entry), s.entries[p]? = some e → e.placement = none →
    ∃ kind, e.token.role = .closing kind
  first : ∀ start first extent, s.FragmentAt start first extent →
    first.offset? = some (if s.isMessageStart start then s.templateOffset + 1 else 0)
  next : ∀ start first extent p e e', s.FragmentAt start first extent → start ≤ p →
    p + 1 < start + extent.tokens → s.entries[p]? = some e → s.entries[p + 1]? = some e' →
    e'.offset? = e.offset?.map (· + (e.token.words : Int))
  last : ∀ start first extent p e, s.FragmentAt start first extent →
    p + 1 = start + extent.tokens → s.entries[p]? = some e →
    e.offset? = some (extent.words - 1 - e.token.words) ∧ s.Ends p e
  filled : ∀ start first extent, s.FragmentAt start first extent → ∀ word,
    (s.lowestWord start ≤ word ∧ word < extent.words) ↔
      ∃ part, s.Occupies start extent part word
  apart : ∀ start first extent, s.FragmentAt start first extent → ∀ word part part',
    s.Occupies start extent part word → s.Occupies start extent part' word → part = part'
  depth : ∀ (p : Nat) (e : Entry) (place : Placement), s.entries[p]? = some e →
    e.placement = some place →
    place.depth = (s.lengthsAround p).length ∧ place.depth < s.maxFragmentDepth
  sequenceEnd : ∀ (p : Nat) (e : Entry), s.entries[p]? = some e → e.token.role = .length →
    ∃ stop, e.sequenceEnd = some stop ∧ s.ClosesAt p stop

section Fragments

variable {s : Schema} (hs : s.LaidOut) {start : Nat} {head : Entry} {extent : Extent}
  (hf : s.FragmentAt start head extent)

include hs hf

theorem FragmentAt.heldAt : s.heldAt start =
    some ⟨start, if s.isMessageStart start then s.templateOffset + 1 else 0,
      (s.context start).bodies.length⟩ := by
  have hx : head.extent.isSome = true := by rw [hf.2]; rfl
  obtain ⟨hnone, hopen⟩ := (hs.extent_isSome start head hf.1).1 hx
  rw [heldAt_start hs hf.1 hx, isMessageStart_eq hs hf.1, hnone, hopen]
  simp

theorem FragmentAt.exists_span : ∃ last, s.Span start last ∧ start + extent.tokens = last + 1 ∧
    ∃ final draft, s.entries[last]? = some final ∧ s.heldAt last = some draft ∧
      extent.words = draft.words + final.token.words + 1 := by
  obtain ⟨last, hspan, htokens, hfinal⟩ := Schema.exists_span hs hf.1 hf.2
  have := hspan.le
  exact ⟨last, hspan, by omega, hfinal⟩

theorem FragmentAt.run : 0 < extent.tokens ∧ start + extent.tokens ≤ s.size := by
  obtain ⟨last, hspan, htokens, -⟩ := hf.exists_span hs
  have := hspan.le
  have := hspan.lt_size
  omega

theorem FragmentAt.disjoint {start' : Nat} {head' : Entry} {extent' : Extent}
    (hf' : s.FragmentAt start' head' extent') (hlt : start < start') :
    start + extent.tokens ≤ start' := by
  obtain ⟨last, hspan, htokens, -⟩ := hf.exists_span hs
  rw [htokens]
  rcases Nat.lt_or_ge last start' with hbehind | hinside
  · exact hbehind
  · obtain ⟨draft, hdraft, hstart⟩ := hspan.held start' (by omega) hinside
    rw [hf'.heldAt hs] at hdraft
    cases hdraft
    simp only at hstart
    omega

theorem FragmentAt.offset {p : Nat} {e : Entry} (hle : start ≤ p)
    (hlt : p < start + extent.tokens) (he : s.entries[p]? = some e) :
    ∃ draft, s.heldAt p = some draft ∧ e.placement = some ⟨draft.depth, draft.words⟩ ∧
      e.offset? = some draft.words := by
  obtain ⟨last, hspan, htokens, -⟩ := hf.exists_span hs
  obtain ⟨draft, hdraft, -⟩ := hspan.held p hle (by omega)
  have hplace := placement_eq hs he
  rw [hdraft, Option.map_some] at hplace
  exact ⟨draft, hdraft, hplace, by rw [Entry.offset?, hplace]; rfl⟩

theorem FragmentAt.first : head.offset? =
    some (if s.isMessageStart start then s.templateOffset + 1 else 0) := by
  obtain ⟨hpos, -⟩ := hf.run hs
  obtain ⟨draft, hdraft, -, hoffset⟩ := hf.offset hs (Nat.le_refl _) (by omega) hf.1
  rw [hf.heldAt hs] at hdraft
  cases hdraft
  exact hoffset

theorem FragmentAt.next {p : Nat} {e e' : Entry} (hle : start ≤ p)
    (hlt : p + 1 < start + extent.tokens) (he : s.entries[p]? = some e)
    (he' : s.entries[p + 1]? = some e') :
    e'.offset? = e.offset?.map (· + (e.token.words : Int)) := by
  obtain ⟨last, hspan, htokens, -⟩ := hf.exists_span hs
  obtain ⟨draft, hdraft, -, hoffset⟩ := hf.offset hs hle (by omega) he
  obtain ⟨later, hlater, -, hoffset'⟩ := hf.offset hs (Nat.le_succ_of_le hle) hlt he'
  rw [hspan.heldAt_succ hle (by omega) he hdraft] at hlater
  cases hlater
  rw [hoffset', hoffset]
  rfl

theorem FragmentAt.words_le {p q : Nat} {e : Entry} {draft later : FragmentDraft}
    (hle : start ≤ p) (hpq : p < q) (hq : q < start + extent.tokens) (he : s.entries[p]? = some e)
    (hdraft : s.heldAt p = some draft) (hlater : s.heldAt q = some later) :
    draft.words + e.token.words ≤ later.words := by
  obtain ⟨last, hspan, htokens, -⟩ := hf.exists_span hs
  exact hspan.words_le hle hpq (by omega) he hdraft hlater

/-- A token's words lie behind the id of a message and in front of the trailer. -/
theorem FragmentAt.words_between {p : Nat} {e : Entry} {draft : FragmentDraft} (hle : start ≤ p)
    (hlt : p < start + extent.tokens) (he : s.entries[p]? = some e)
    (hdraft : s.heldAt p = some draft) :
    (if s.isMessageStart start then s.templateOffset + 1 else 0) ≤ draft.words ∧
      draft.words + e.token.words ≤ extent.words - 1 := by
  obtain ⟨last, hspan, htokens, final, ending, hfinal, hending, hwords⟩ := hf.exists_span hs
  constructor
  · by_cases hp : p = start
    · subst hp
      rw [hf.heldAt hs] at hdraft
      cases hdraft
      exact Int.le_refl _
    · have hbehind := hf.words_le hs (Nat.le_refl _) (by omega) hlt hf.1 (hf.heldAt hs) hdraft
      simp only at hbehind
      omega
  · by_cases hp : p = last
    · subst hp
      rw [hdraft] at hending
      cases hending
      rw [he] at hfinal
      cases hfinal
      omega
    · have hbehind := hf.words_le hs hle (by omega) (by omega) he hdraft hending
      omega

theorem FragmentAt.occupies_token {position : Nat} {word : Int}
    (h : s.Occupies start extent (.token position) word) :
    ∃ e draft, start ≤ position ∧ position < start + extent.tokens ∧
      s.entries[position]? = some e ∧ s.heldAt position = some draft ∧ draft.words ≤ word ∧
        word < draft.words + e.token.words := by
  obtain ⟨hle, hlt, e, place, he, hplace, hlow, hhigh⟩ := h
  obtain ⟨draft, hdraft, hplaced, -⟩ := hf.offset hs hle hlt he
  rw [hplace] at hplaced
  cases hplaced
  exact ⟨e, draft, hle, hlt, he, hdraft, hlow, hhigh⟩

/-- The tokens leave out no word between the first of them and the trailer. -/
theorem FragmentAt.occupied {word : Int}
    (hlow : (if s.isMessageStart start then s.templateOffset + 1 else 0) ≤ word)
    (hhigh : word < extent.words - 1) :
    ∃ position, s.Occupies start extent (.token position) word := by
  obtain ⟨last, hspan, htokens, final, ending, hfinal, hending, hwords⟩ := hf.exists_span hs
  -- By induction over the tokens: a word that none of the later ones takes lies in front of them.
  have hback : ∀ gap, start + gap ≤ last → ∀ e draft, s.entries[start + gap]? = some e →
      s.heldAt (start + gap) = some draft → word < draft.words + e.token.words →
        ∃ position, s.Occupies start extent (.token position) word := by
    intro gap
    induction gap with
    | zero =>
      intro hlast e draft he hdraft hword
      obtain ⟨held, hheld, hplace, -⟩ := hf.offset hs (Nat.le_refl _) (by omega) he
      rw [hf.heldAt hs] at hheld
      cases hheld
      rw [Nat.add_zero, hf.heldAt hs] at hdraft
      cases hdraft
      exact ⟨start, Nat.le_refl _, by omega, e, _, he, hplace, hlow, hword⟩
    | succ gap ih =>
      intro hlast e draft he hdraft hword
      obtain ⟨e', he'⟩ : ∃ e', s.entries[start + gap]? = some e' :=
        exists_entry (by have := hspan.lt_size; omega)
      obtain ⟨before, hbefore, -⟩ := hspan.held (start + gap) (by omega) (by omega)
      have hnext := hspan.heldAt_succ (by omega) (by omega) he' hbefore
      rw [← Nat.add_assoc] at he hdraft
      rw [hdraft] at hnext
      cases hnext
      by_cases hearlier : word < before.words + e'.token.words
      · exact ih (by omega) e' before he' hbefore hearlier
      · obtain ⟨held, hheld, hplace, -⟩ := hf.offset hs (by omega) (by omega) he
        rw [hdraft] at hheld
        cases hheld
        exact ⟨_, by omega, by omega, e, _, he, hplace, by simpa using hearlier, hword⟩
  have hle := hspan.le
  have hlast : start + (last - start) = last := by omega
  exact hback (last - start) (by omega) final ending (by rwa [hlast]) (by rwa [hlast]) (by omega)

/-- Where the words of a part lie, against the id of a message and the trailer. -/
theorem FragmentAt.zone {part : Part} {word : Int} (h : s.Occupies start extent part word) :
    match part with
    | .preamble => s.isMessageStart start = true ∧ 0 ≤ word ∧ word < s.templateOffset
    | .id => s.isMessageStart start = true ∧ word = s.templateOffset
    | .token _ => (if s.isMessageStart start then s.templateOffset + 1 else 0) ≤ word ∧
        word < extent.words - 1
    | .trailer => word = extent.words - 1 := by
  cases part with
  | preamble => exact h
  | id => exact h
  | trailer => exact h
  | token position =>
    obtain ⟨e, draft, hle, hlt, he, hdraft, hlow, hhigh⟩ := hf.occupies_token hs h
    obtain ⟨hbase, hend⟩ := hf.words_between hs hle hlt he hdraft
    exact ⟨Int.le_trans hbase hlow, Int.lt_of_lt_of_le hhigh hend⟩

theorem FragmentAt.base_le :
    (if s.isMessageStart start then s.templateOffset + 1 else 0) ≤ extent.words - 1 := by
  obtain ⟨hpos, -⟩ := hf.run hs
  obtain ⟨hbase, hend⟩ := hf.words_between hs (Nat.le_refl _) (by omega) hf.1 (hf.heldAt hs)
  simp only at hend
  omega

theorem FragmentAt.filled (word : Int) : (s.lowestWord start ≤ word ∧ word < extent.words) ↔
    ∃ part, s.Occupies start extent part word := by
  have htrailer := hf.base_le hs
  unfold lowestWord
  constructor
  · rintro ⟨hlow, hhigh⟩
    by_cases hlast : word = extent.words - 1
    · exact ⟨.trailer, hlast⟩
    by_cases hbase : (if s.isMessageStart start then s.templateOffset + 1 else 0) ≤ word
    · obtain ⟨position, hposition⟩ := hf.occupied hs hbase (by omega)
      exact ⟨_, hposition⟩
    · cases hmessage : s.isMessageStart start with
      | false =>
        simp only [hmessage, Bool.false_eq_true, ↓reduceIte] at hlow hbase
        omega
      | true =>
        simp only [hmessage, ↓reduceIte] at hlow hbase
        by_cases hid : word = s.templateOffset
        · exact ⟨.id, hmessage, hid⟩
        · exact ⟨.preamble, hmessage, by omega, by omega⟩
  · rintro ⟨part, hpart⟩
    have hzone := hf.zone hs hpart
    cases hmessage : s.isMessageStart start <;> cases part <;>
      simp only [hmessage, Bool.false_eq_true, ↓reduceIte, false_and, true_and]
        at hzone htrailer ⊢ <;>
      omega

theorem FragmentAt.apart {word : Int} {part part' : Part} (h : s.Occupies start extent part word)
    (h' : s.Occupies start extent part' word) : part = part' := by
  have htrailer := hf.base_le hs
  have hzone := hf.zone hs h
  have hzone' := hf.zone hs h'
  cases part with
  | token p =>
    cases part' with
    | token q =>
      obtain ⟨e, draft, hp, hlt, he, hdraft, hlow, hhigh⟩ := hf.occupies_token hs h
      obtain ⟨e', draft', hq, hlt', he', hdraft', hlow', hhigh'⟩ := hf.occupies_token hs h'
      rcases Nat.lt_trichotomy p q with hpq | rfl | hqp
      · have hbehind := hf.words_le hs hp hpq hlt' he hdraft hdraft'
        omega
      · rfl
      · have hbehind := hf.words_le hs hq hqp hlt he' hdraft' hdraft
        omega
    | preamble | id | trailer => simp only [hzone', ↓reduceIte] at hzone; omega
  | preamble | id | trailer =>
    cases part' <;> first
      | rfl
      | cases hmessage : s.isMessageStart start <;>
          simp only [hmessage, Bool.false_eq_true, ↓reduceIte, false_and, true_and]
            at hzone hzone' htrailer <;>
          omega

end Fragments

theorem mem_lengthsAround {s : Schema} (hs : s.LaidOut) {p length : Nat} :
    length ∈ s.lengthsAround p ↔ length + 1 ∈ (s.context p).bodies := by
  rw [lengthsAround, List.mem_filter, List.mem_range]
  constructor
  · rintro ⟨hlt, hopen⟩
    obtain ⟨e, he, hopen⟩ := Option.any_eq_true _ _ |>.1 hopen
    rw [Bool.and_eq_true] at hopen
    obtain ⟨stop, hstop, hp⟩ := Option.any_eq_true _ _ |>.1 hopen.2
    have hrole := Token.role_of_isLength hopen.1
    obtain ⟨found, hfound, -, hends⟩ := hs.sequenceEnd length e he hrole
    rw [hstop] at hfound
    cases hfound
    have ht : s.tokens[length]? = some e.token := by rw [getElem?_tokens, he]; rfl
    exact (hends.suffix ht hrole hlt (of_decide_eq_true hp)).subset List.mem_cons_self
  · intro hbody
    obtain ⟨inner, outer, hbodies⟩ := List.append_of_mem hbody
    obtain ⟨found, token, heq, hlt, ht, hrole, houter, hinside⟩ := length_of_bodies hbodies
    obtain rfl : length = found := by omega
    rw [getElem?_tokens] at ht
    obtain ⟨e, he, rfl⟩ := Option.map_eq_some_iff.1 ht
    obtain ⟨stop, hstop, -, hlater, hsame, -⟩ := hs.sequenceEnd length e he hrole
    refine ⟨hlt, ?_⟩
    simp only [he, Option.any_some, Token.isLength_eq, hrole, TokenRole.isLength, hstop,
      Bool.true_and, decide_eq_true_eq]
    rcases Nat.lt_or_ge p stop with hbefore | hended
    · exact hbefore
    · have hdeeper := hinside stop (by omega) hended
      rw [hsame, houter] at hdeeper
      exact absurd hdeeper (Nat.lt_irrefl _)

theorem length_lengthsAround {s : Schema} (hs : s.LaidOut) (p : Nat) :
    (s.lengthsAround p).length = (s.context p).bodies.length := by
  have hperm : ((s.lengthsAround p).map (· + 1)).Perm (s.context p).bodies := by
    rw [List.perm_ext_iff_of_nodup]
    · intro body
      rw [List.mem_map]
      constructor
      · rintro ⟨length, hlength, rfl⟩
        exact (mem_lengthsAround hs).1 hlength
      · intro hbody
        obtain ⟨inner, outer, hbodies⟩ := List.append_of_mem hbody
        obtain ⟨length, -, rfl, -⟩ := length_of_bodies hbodies
        exact ⟨length, (mem_lengthsAround hs).2 hbody, rfl⟩
    · exact List.Pairwise.map _ (fun a b hne heq => hne (by omega))
        (List.Pairwise.filter _ List.nodup_range)
    · exact (bodies_contextAt _ _ p).1.imp fun hgt => Nat.ne_of_gt hgt
  rw [← hperm.length_eq, List.length_map]

section Positions

variable {s : Schema} (hs : s.LaidOut) {p : Nat} {e : Entry} (he : s.entries[p]? = some e)

include hs he

/-- A token has a place exactly where a fragment has it in its run. -/
theorem covered : e.placement.isSome = true ↔
    ∃ start head extent, s.FragmentAt start head extent ∧ start ≤ p ∧
      p < start + extent.tokens := by
  constructor
  · intro hplace
    rw [placement_eq hs he, Option.isSome_map] at hplace
    obtain ⟨draft, hdraft⟩ := Option.isSome_iff_exists.1 hplace
    obtain ⟨last, hle, hlt, hall, -, hends⟩ := exists_last hdraft
    obtain ⟨final, hfinal⟩ := exists_entry hlt
    obtain ⟨held, hheld, hstart⟩ := hall last hle (Nat.le_refl _)
    obtain ⟨head, hhead, hextent⟩ := hs.extent last final held hfinal
      (by rw [← heldAt_eq hfinal]; exact hheld) hends
    rw [hstart] at hhead hextent
    have hbegun : draft.start ≤ p := by
      rw [heldAt_eq he] at hdraft
      exact start_le_of_holder hdraft
    exact ⟨draft.start, head, _, ⟨hhead, hextent⟩, hbegun, by simp only; omega⟩
  · rintro ⟨start, head, extent, hf, hle, hlt⟩
    obtain ⟨draft, -, hplace, -⟩ := hf.offset hs hle hlt he
    rw [hplace]
    rfl

theorem between (hnone : e.placement = none) : ∃ kind, e.token.role = .closing kind := by
  rw [placement_eq hs he, Option.map_eq_none_iff, heldAt_eq he] at hnone
  cases hd : (s.context p).draft with
  | some draft =>
    rw [Context.holder_of_some _ _ _ _ hd] at hnone
    cases hnone
  | none =>
    rw [Context.holder_of_none _ _ _ _ hd] at hnone
    split at hnone
    · rename_i hclosing
      obtain ⟨kind, hrole, -⟩ := role_of_isClosing hclosing
      exact ⟨kind, hrole⟩
    · cases hnone

/-- The depth of a token counts the sequences around it, and a walker's stacks have a slot more. -/
theorem depth {place : Placement} (hplace : e.placement = some place) :
    place.depth = (s.lengthsAround p).length ∧ place.depth < s.maxFragmentDepth := by
  constructor
  · rw [placement_eq hs he] at hplace
    obtain ⟨draft, hdraft, rfl⟩ := Option.map_eq_some_iff.1 hplace
    rw [length_lengthsAround hs]
    exact depth_of_heldAt hdraft
  · have hlt := depth_lt_maxFragmentDepth he
    rwa [Entry.depth?, hplace] at hlt

end Positions

section Endings

variable {tokens : List Token} {names : List String} {offset : Int} {l : Layout} {s : Schema}

theorem isSimple_of_tokens (h : ∀ token ∈ s.tokens, token.isStructural = false) :
    s.isSimple = true := by
  unfold isSimple
  rw [Array.all_eq_true_iff_forall_mem]
  intro e he
  rw [h e.token (List.mem_map_of_mem he.val), Bool.not_false]

theorem ends_of_draft {p : Nat} {e : Entry} {draft : FragmentDraft} (he : s.entries[p]? = some e)
    (hheld : s.heldAt p = some draft) (hnone : (s.context (p + 1)).draft = none) : s.Ends p e := by
  rw [heldAt_eq he] at hheld
  rw [s.context_succ he] at hnone
  cases hr : e.token.role with
  | length => exact .inl hr
  | plain =>
    rw [Context.after_of_plain _ _ _ _ hr, hheld] at hnone
    cases hnone
  | opening kind =>
    rw [Context.after_of_opening _ _ _ _ hr, hheld] at hnone
    cases hnone
  | closing kind =>
    rw [Context.after_of_closing _ _ _ _ hr, hheld] at hnone
    by_cases hkind : (kind.sequence || kind.template) = true
    · exact .inr (.inl ⟨kind, hr, by simpa using hkind⟩)
    · simp [hkind] at hnone

theorem draft_size (h : ofScript tokens names offset = .ok s) :
    (s.context s.size).draft = none ∨ s.isSimple = true := by
  have htokens := (tokens_of_ofScript h).2
  obtain ⟨-, -, ⟨hflat, -⟩ | ⟨l, hl, hgroups, rfl⟩⟩ := ofScript_ok h
  · right
    apply isSimple_of_tokens
    rw [htokens]
    simpa using hflat
  · left
    rw [← length_tokens, context, htokens]
    apply (wellNested_contextAt (Nat.le_refl _) (permittedTo_of_steps hl)).draft_outside
    rw [← context_of_steps hl]
    exact hgroups

/-- Around a length token the brackets are those of a sequence. -/
theorem exists_sequence (hl : Layout.empty.steps offset (nameTokens tokens names) = .ok l)
    (hgroups : l.groups = []) {p : Nat} {token : Token} (ht : tokens[p]? = some token)
    (hr : token.role = .length) :
    ∃ opening closing inner rest, opening.role = .opening ⟨false, true⟩ ∧
      closing.role = .closing ⟨false, true⟩ ∧
      tokens.drop p = token :: opening :: (Body.tokens inner ++ closing :: rest) := by
  have hp := permittedTo_of_steps hl
  have hlt : p < tokens.length := (List.getElem?_eq_some_iff.1 ht).1
  have hend : (contextAt offset tokens tokens.length).groups = [] := by
    rw [← context_of_steps hl]
    exact hgroups
  have hfollows : followsLength tokens p = false := by
    cases hf : followsLength tokens p with
    | false => rfl
    | true =>
      have hopens := opensSequence_of_followsLength (fun i hi => hp i (by omega)) hf ht
      rw [hr] at hopens
      cases hopens
  cases hg : (contextAt offset tokens p).groups with
  | nil =>
    rw [opens_message hp ht hg] at hr
    cases hr
  | cons kind outer =>
    obtain ⟨body, closing, rest, hbody, hclosing, -⟩ :=
      exists_body hp hend (show p + (tokens.length - p) = tokens.length by omega) hfollows hg
    cases body with
    | done =>
      cases (getElem?_of_drop hbody).symm.trans ht
      rw [hclosing] at hr
      cases hr
    | plain found role behind =>
      cases (getElem?_of_drop hbody).symm.trans ht
      rw [role] at hr
      cases hr
    | group opening close opens closes inner behind =>
      cases (getElem?_of_drop hbody).symm.trans ht
      rw [opens] at hr
      cases hr
    | sequence length opening close counts opens closes inner behind =>
      cases (getElem?_of_drop hbody).symm.trans ht
      refine ⟨opening, close, inner, behind.tokens ++ closing :: rest, opens, closes, ?_⟩
      rw [hbody]
      simp [Body.tokens]

theorem sequenceEnd_closesAt (h : ofScript tokens names offset = .ok s) {p : Nat} {e : Entry}
    (he : s.entries[p]? = some e) (hr : e.token.role = .length) :
    ∃ stop, e.sequenceEnd = some stop ∧ s.ClosesAt p stop := by
  have hs := (Compiled.script h).laidOut
  have htokens := (tokens_of_ofScript h).2
  have ht : tokens[p]? = some e.token := by rw [← htokens, getElem?_tokens, he]; rfl
  obtain ⟨-, -, ⟨hflat, -⟩ | ⟨l, hl, hgroups, -⟩⟩ := ofScript_ok h
  · rw [List.any_eq_false] at hflat
    rw [Token.role_of_not_structural (by simpa using hflat _ (List.mem_of_getElem? ht))] at hr
    cases hr
  · obtain ⟨opening, closing, inner, rest, opens, closes, hdrop⟩ :=
      exists_sequence hl hgroups ht hr
    rw [← htokens] at hdrop
    obtain ⟨e', he', -, hend⟩ := sequenceEnd_sequence hs hdrop hr opens closes
    rw [he] at he'
    cases he'
    exact ⟨_, hend, e.token, opening, closing, inner, rest, hr, opens, closes, hdrop, by omega⟩

end Endings

theorem FragmentAt.last {s : Schema} (hs : s.LaidOut)
    (hsize : (s.context s.size).draft = none ∨ s.isSimple = true) {start p : Nat} {head e : Entry}
    {extent : Extent} (hf : s.FragmentAt start head extent) (hp : p + 1 = start + extent.tokens)
    (he : s.entries[p]? = some e) :
    e.offset? = some (extent.words - 1 - e.token.words) ∧ s.Ends p e := by
  obtain ⟨last, hspan, htokens, final, draft, hfinal, hdraft, hwords⟩ := hf.exists_span hs
  obtain rfl : p = last := by omega
  rw [he] at hfinal
  cases hfinal
  constructor
  · obtain ⟨held, hheld, -, hoffset⟩ := hf.offset hs hspan.le (by omega) he
    rw [hdraft] at hheld
    cases hheld
    rw [hoffset]
    congr 1
    omega
  · rcases hspan.ends with hnone | hend
    · exact ends_of_draft he hdraft hnone
    · rcases hsize with hnone | hsimple
      · exact ends_of_draft he hdraft (by rw [hend]; exact hnone)
      · exact .inr (.inr ⟨hsimple, hend⟩)

/-- However groups and sequences nest in a script that compiles, its tables divide the tokens into
fragments and the words of each fragment into parts, and they tell depths and ends of sequences as
the brackets do. -/
theorem partitioned_of_ofScript {tokens : List Token} {names : List String} {offset : Int}
    {s : Schema} (h : ofScript tokens names offset = .ok s) :
    s.tokens = tokens ∧ s.templateOffset = offset ∧ s.Partitioned := by
  have hs := (Compiled.script h).laidOut
  have hoffset : s.templateOffset = offset := by
    obtain ⟨-, -, ⟨-, rfl⟩ | ⟨l, -, -, rfl⟩⟩ := ofScript_ok h <;> rfl
  refine ⟨(tokens_of_ofScript h).2, hoffset, ?_⟩
  exact
    { run := fun _ _ _ hf => hf.run hs
      disjoint := fun _ _ _ _ _ _ hf hf' hlt => hf.disjoint hs hf' hlt
      covered := fun _ _ he => covered hs he
      between := fun _ _ he hnone => between hs he hnone
      first := fun _ _ _ hf => hf.first hs
      next := fun _ _ _ _ _ _ hf hle hlt he he' => hf.next hs hle hlt he he'
      last := fun _ _ _ _ _ hf hlast he => hf.last hs (draft_size h) hlast he
      filled := fun _ _ _ hf word => hf.filled hs word
      apart := fun _ _ _ hf _ _ _ hpart hpart' => hf.apart hs hpart hpart'
      depth := fun _ _ _ he hplace => depth hs he hplace
      sequenceEnd := fun _ _ he hr => sequenceEnd_closesAt h he hr }

theorem partitioned_book : ofScript book.tokens book.names 0 = .ok book ∧ book.Partitioned :=
  have h : ofScript book.tokens book.names 0 = .ok book := rfl
  ⟨h, (partitioned_of_ofScript h).2.2⟩

end Schema

end FragmentPipe
