import FragmentPipe.Proofs.Script.Compiled

set_option autoImplicit false

namespace FragmentPipe

namespace Schema

theorem le_foldl_max {α : Type} (measure : α → Nat) (start : Nat) {l : List α} {a : α}
    (h : a ∈ l) : measure a ≤ l.foldl (fun deepest x => max deepest (measure x)) start := by
  induction l generalizing start with
  | nil => cases h
  | cons x rest ih =>
    rcases List.mem_cons.1 h with rfl | hrest
    · have hgrows : ∀ (l : List α) (m : Nat),
          m ≤ l.foldl (fun deepest x => max deepest (measure x)) m := by
        intro l
        induction l with
        | nil => exact fun m => Nat.le_refl m
        | cons y l ih => exact fun m => Nat.le_trans (Nat.le_max_left m _) (ih _)
      exact Nat.le_trans (Nat.le_max_right start _) (hgrows rest _)
    · exact ih _ hrest

theorem role_of_isClosing {token : Token} (h : token.isClosing = true) :
    ∃ kind, token.role = .closing kind ∧ kind.sequence = token.closesSequence := by
  rw [Token.isClosing_eq] at h
  rw [Token.closesSequence_eq]
  cases hr : token.role with
  | plain | length | opening kind => simp [hr, TokenRole.isClosing] at h
  | closing kind => exact ⟨kind, rfl, rfl⟩

/-- The fragment that holds the token at a position, as it is before that token. -/
def heldAt (s : Schema) (position : Nat) : Option FragmentDraft :=
  s.entries[position]?.bind fun e =>
    (s.context position).holder s.templateOffset position e.token

structure Span (s : Schema) (start last : Nat) : Prop where
  le : start ≤ last
  lt_size : last < s.size
  held : ∀ q, start ≤ q → q ≤ last → ∃ draft, s.heldAt q = some draft ∧ draft.start = start
  bodies : ∀ q, start ≤ q → q ≤ last → (s.context q).bodies = (s.context start).bodies
  ends : (s.context (last + 1)).draft = none ∨ last + 1 = s.size

section

variable {s : Schema} {start p : Nat} {e : Entry} {draft : FragmentDraft}

theorem lt_size_of_getElem? (h : s.entries[p]? = some e) : p < s.size :=
  (Array.getElem?_eq_some_iff.1 h).1

theorem exists_entry (h : p < s.size) : ∃ e, s.entries[p]? = some e :=
  ⟨_, Array.getElem?_eq_getElem h⟩

theorem heldAt_eq (h : s.entries[p]? = some e) :
    s.heldAt p = (s.context p).holder s.templateOffset p e.token := by
  simp [heldAt, h]

theorem heldAt_of_draft (hp : p < s.size) (h : (s.context p).draft = some draft) :
    s.heldAt p = some draft := by
  obtain ⟨e, he⟩ := exists_entry hp
  rw [heldAt_eq he, Context.holder_of_some _ _ _ _ h]

theorem draft_succ (he : s.entries[p]? = some e)
    (h : (s.context (p + 1)).draft = some draft) :
    ∃ held, s.heldAt p = some held ∧ draft = { held with words := held.words + e.token.words } ∧
      (s.context (p + 1)).bodies = (s.context p).bodies := by
  rw [heldAt_eq he]
  rw [s.context_succ he] at h ⊢
  exact Context.draft_after _ _ _ _ h

theorem depth_of_heldAt (h : s.heldAt p = some draft) :
    draft.depth = (s.context p).bodies.length := by
  unfold heldAt at h
  obtain ⟨e, he, hheld⟩ := Option.bind_eq_some_iff.1 h
  exact depth_of_holder hheld

/-- Whatever fragment holds a token ends at that token or behind it. -/
theorem exists_last (h : s.heldAt p = some draft) :
    ∃ last, p ≤ last ∧ last < s.size ∧
      (∀ q, p ≤ q → q ≤ last → ∃ d, s.heldAt q = some d ∧ d.start = draft.start) ∧
      (∀ q, p ≤ q → q ≤ last → (s.context q).bodies = (s.context p).bodies) ∧
      ((s.context (last + 1)).draft = none ∨ last + 1 = s.size) := by
  have hp : p < s.size := by
    unfold heldAt at h
    obtain ⟨e, he, -⟩ := Option.bind_eq_some_iff.1 h
    exact lt_size_of_getElem? he
  obtain ⟨left, _⟩ : ∃ left, p + left + 1 = s.size := ⟨s.size - p - 1, by omega⟩
  induction left generalizing p draft with
  | zero =>
    refine ⟨p, Nat.le_refl _, hp, ?_, ?_, .inr (by omega)⟩
    · intro q hq hle
      obtain rfl : q = p := by omega
      exact ⟨draft, h, rfl⟩
    · intro q hq hle
      obtain rfl : q = p := by omega
      rfl
  | succ left ih =>
    cases hgoes : (s.context (p + 1)).draft with
    | none =>
      refine ⟨p, Nat.le_refl _, hp, ?_, ?_, .inl hgoes⟩
      · intro q hq hle
        obtain rfl : q = p := by omega
        exact ⟨draft, h, rfl⟩
      · intro q hq hle
        obtain rfl : q = p := by omega
        rfl
    | some later =>
      obtain ⟨e, he⟩ := exists_entry hp
      obtain ⟨held, hheld, rfl, hbodies⟩ := draft_succ he hgoes
      rw [h] at hheld
      cases hheld
      obtain ⟨last, hle, hlt, hall, hsame, hends⟩ :=
        ih (heldAt_of_draft (by omega) hgoes) (by omega) (by omega)
      refine ⟨last, by omega, hlt, ?_, ?_, hends⟩
      · intro q hq hle'
        by_cases hqp : q = p
        · exact ⟨draft, hqp ▸ h, rfl⟩
        · exact hall q (by omega) hle'
      · intro q hq hle'
        by_cases hqp : q = p
        · rw [hqp]
        · rw [hsame q (by omega) hle', hbodies]

theorem heldAt_start (hs : s.LaidOut) (he : s.entries[p]? = some e)
    (hx : e.extent.isSome = true) :
    s.heldAt p = some ⟨p, if (s.context p).groups.isEmpty then s.templateOffset + 1 else 0,
      (s.context p).bodies.length⟩ := by
  obtain ⟨hnone, hopen⟩ := (hs.extent_isSome p e he).1 hx
  rw [heldAt_eq he, Context.holder_of_none _ _ _ _ hnone]
  simp [hopen]

/-- A fragment's extent is the run of tokens that it holds. -/
theorem exists_span (hs : s.LaidOut) (he : s.entries[start]? = some e) {extent : Extent}
    (hx : e.extent = some extent) :
    ∃ last, s.Span start last ∧ extent.tokens = last + 1 - start ∧
      ∃ final draft, s.entries[last]? = some final ∧ s.heldAt last = some draft ∧
        extent.words = draft.words + final.token.words + 1 := by
  have hheld := heldAt_start hs he (by rw [hx]; rfl)
  obtain ⟨last, hle, hlt, hall, hsame, hends⟩ := exists_last hheld
  refine ⟨last, ⟨hle, hlt, hall, hsame, hends⟩, ?_⟩
  obtain ⟨draft, hdraft, hstart⟩ := hall last hle (Nat.le_refl _)
  obtain ⟨final, hfinal⟩ := exists_entry hlt
  obtain ⟨first, hfirst, hextent⟩ := hs.extent last _ draft hfinal
    (by rw [← heldAt_eq hfinal]; exact hdraft) hends
  simp only at hstart
  rw [hstart, he] at hfirst
  cases hfirst
  rw [hx] at hextent
  cases hextent
  exact ⟨by simp [hstart], _, draft, hfinal, hdraft, rfl⟩

theorem body_begins (hs : s.LaidOut) {inner outer : List Nat} {body : Nat}
    (h : (s.context p).bodies = inner ++ body :: outer) :
    (s.context body).bodies = body :: outer ∧ (s.context body).draft = none ∧
      ∃ e, s.entries[body]? = some e ∧ e.extent.isSome = true := by
  obtain ⟨length, token, rfl, hlt, ht, hr, houter, -⟩ := length_of_bodies h
  rw [getElem?_tokens] at ht
  obtain ⟨e, he, rfl⟩ := Option.map_eq_some_iff.1 ht
  obtain ⟨next, hnext, hopens⟩ := hs.behind_length length e he hr
  have hcontext : s.context (length + 1) =
      { s.context length with bodies := (length + 1) :: outer, draft := none } := by
    rw [s.context_succ he, Context.after_of_length _ _ _ _ hr, ← houter]
    rfl
  have hopen : next.token.isClosing = false := by
    rw [Token.opensSequence_eq] at hopens
    rw [Token.isClosing_eq]
    cases hrole : next.token.role <;> simp_all [TokenRole.opensSequence, TokenRole.isClosing]
  refine ⟨by rw [hcontext], by rw [hcontext], next, hnext, ?_⟩
  rw [hs.extent_isSome _ _ hnext, hcontext]
  exact ⟨rfl, hopen⟩

theorem placement_eq (hs : s.LaidOut) (he : s.entries[p]? = some e) :
    e.placement = (s.heldAt p).map fun draft => ⟨draft.depth, draft.words⟩ := by
  rw [hs.placement p e he, heldAt_eq he]

theorem fragment?_ofNat (he : s.entries[p]? = some e) :
    s.fragment? p = e.extent.map fun extent =>
      ⟨p, distance extent.words, extent.tokens, e.depth?.getD 0, e.startsMessage⟩ := by
  cases hx : e.extent with
  | none => simp [fragment?, at?, he, hx]
  | some extent => simp [fragment?, at?, he, hx]

theorem fragment?_eq_some {position : Int} {f : Fragment} (h : s.fragment? position = some f) :
    position = f.start ∧ ∃ e extent, s.entries[f.start]? = some e ∧ e.extent = some extent ∧
      f = ⟨f.start, distance extent.words, extent.tokens, e.depth?.getD 0, e.startsMessage⟩ := by
  cases position with
  | negSucc n => simp [fragment?, at?] at h
  | ofNat n =>
    cases he : s.entries[n]? with
    | none => simp [fragment?, at?, he] at h
    | some e =>
      rw [Int.ofNat_eq_natCast, fragment?_ofNat he] at h
      obtain ⟨extent, hx, rfl⟩ := Option.map_eq_some_iff.1 h
      exact ⟨rfl, e, extent, he, hx, rfl⟩

theorem isSome_fragment? (s : Schema) (position : Int) :
    (s.fragment? position).isSome = s.isFragmentStart position := by
  unfold fragment? isFragmentStart
  cases s.at? position with
  | none => rfl
  | some e => cases hx : e.extent <;> simp [hx]

/-- A fragment begins exactly where none goes on, unless a close stands there. -/
theorem fragment?_isSome_iff (hs : s.LaidOut) (he : s.entries[p]? = some e) :
    (s.fragment? p).isSome = true ↔ (s.context p).draft = none ∧ e.token.isClosing = false := by
  rw [fragment?_ofNat he, Option.isSome_map, hs.extent_isSome p e he]

theorem depth_of_fragment? (hs : s.LaidOut) {position : Int} {f : Fragment}
    (h : s.fragment? position = some f) : f.depth = (s.context f.start).bodies.length := by
  obtain ⟨-, e, extent, he, hx, hf⟩ := fragment?_eq_some h
  rw [hf, Entry.depth?, placement_eq hs he, heldAt_start hs he (by rw [hx]; rfl)]
  rfl

theorem isMessageStart_eq (hs : s.LaidOut) (he : s.entries[p]? = some e) :
    s.isMessageStart p = ((s.context p).draft.isNone && !e.token.isClosing &&
      (s.context p).groups.isEmpty) := by
  rw [← hs.startsMessage p e he]
  simp [isMessageStart, at?, he]

theorem exists_entry_of_isMessageStart (h : s.isMessageStart p = true) :
    ∃ e, s.entries[p]? = some e := by
  cases he : s.entries[p]? with
  | none => simp [isMessageStart, at?, he] at h
  | some e => exact ⟨e, rfl⟩

theorem lt_size_of_isMessageStart (h : s.isMessageStart p = true) : p < s.size := by
  obtain ⟨e, he⟩ := exists_entry_of_isMessageStart h
  exact lt_size_of_getElem? he

theorem exists_fragment_of_isMessageStart (hs : s.LaidOut) (h : s.isMessageStart p = true) :
    ∃ f, s.fragment? p = some f := by
  obtain ⟨e, he⟩ := exists_entry_of_isMessageStart h
  rw [isMessageStart_eq hs he] at h
  simp only [Bool.and_eq_true, Option.isNone_iff_eq_none, Bool.not_eq_true'] at h
  exact Option.isSome_iff_exists.1 ((fragment?_isSome_iff hs he).2 h.1)

theorem bodies_of_isMessageStart (hs : s.LaidOut) (h : s.isMessageStart p = true) :
    (s.context p).bodies = [] := by
  obtain ⟨e, he⟩ := exists_entry_of_isMessageStart h
  rw [isMessageStart_eq hs he] at h
  simp only [Bool.and_eq_true, List.isEmpty_iff] at h
  exact hs.outside p (Nat.le_of_lt (lt_size_of_getElem? he)) h.2

theorem bodies_size (hs : s.LaidOut) : (s.context s.size).bodies = [] :=
  hs.outside s.size (Nat.le_refl _) hs.finished

theorem startsMessage_of_fragment? {position : Int} {f : Fragment}
    (h : s.fragment? position = some f) : f.startsMessage = s.isMessageStart f.start := by
  obtain ⟨-, e, extent, he, -, hf⟩ := fragment?_eq_some h
  rw [hf]
  simp [isMessageStart, at?, he]

theorem fragment?_zero (hs : s.LaidOut) (hpos : 0 < s.size) :
    ∃ f, s.fragment? 0 = some f ∧ f.startsMessage = true := by
  obtain ⟨e, he⟩ := exists_entry hpos
  have hcloses : e.token.isClosing = false := by
    rw [Token.isClosing_eq]
    cases hrole : e.token.role with
    | plain | length | opening => rfl
    | closing kind =>
      obtain ⟨⟨outer, hgroups, -⟩, -⟩ := hs.closing 0 e kind he hrole
      cases hgroups
  obtain ⟨f, hf⟩ := Option.isSome_iff_exists.1 ((fragment?_isSome_iff hs he).2 ⟨rfl, hcloses⟩)
  refine ⟨f, hf, ?_⟩
  obtain ⟨hstart, -⟩ := fragment?_eq_some hf
  rw [startsMessage_of_fragment? hf, ← hstart]
  exact (isMessageStart_eq hs he).trans (by rw [hcloses]; rfl)

theorem depth_lt_maxFragmentDepth (he : s.entries[p]? = some e) :
    e.depth?.getD 0 < s.maxFragmentDepth := by
  have hmem : e ∈ s.entries.toList := List.mem_of_getElem? (by simpa using he)
  have hle := le_foldl_max (fun e : Entry => e.depth?.getD 0) 0 hmem
  unfold maxFragmentDepth
  rw [← Array.foldl_toList]
  omega

/-- The slots of a walker's stacks suffice for every fragment. -/
theorem bodies_lt_maxFragmentDepth (hs : s.LaidOut) (he : s.entries[p]? = some e)
    (hx : e.extent.isSome = true) : (s.context p).bodies.length < s.maxFragmentDepth := by
  have hlt := depth_lt_maxFragmentDepth he
  rwa [Entry.depth?, placement_eq hs he, heldAt_start hs he hx] at hlt

end

end Schema

end FragmentPipe
