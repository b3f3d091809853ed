import Mathlib.Logic.ExistsUnique
import FragmentPipe.Proofs.Reader.Course
import FragmentPipe.Proofs.Script.Partition

set_option autoImplicit false

namespace FragmentPipe

/-- Ranges that lie end to end from a first position to a last one, none of them empty. -/
inductive Tiles : Nat → List (Nat × Nat) → Nat → Prop where
  | nil (position : Nat) : Tiles position [] position
  | cons {start stop last : Nat} {rest : List (Nat × Nat)} (hlt : start < stop)
      (hrest : Tiles stop rest last) : Tiles start ((start, stop) :: rest) last

section Tilings

variable {first last size p : Nat} {ranges : List (Nat × Nat)}

theorem Tiles.le_of_mem (h : Tiles first ranges last) {range : Nat × Nat} (hmem : range ∈ ranges) :
    first ≤ range.1 := by
  induction h with
  | nil => cases hmem
  | cons hlt _ ih =>
    rcases List.mem_cons.1 hmem with rfl | hmem
    · exact Nat.le_refl _
    · exact Nat.le_trans (Nat.le_of_lt hlt) (ih hmem)

theorem Tiles.existsUnique (h : Tiles first ranges last) (hle : first ≤ p) (hlt : p < last) :
    ∃! range, range ∈ ranges ∧ range.1 ≤ p ∧ p < range.2 := by
  induction h with
  | nil => omega
  | @cons start stop last rest hlt' hrest ih =>
    by_cases hp : p < stop
    · refine ⟨(start, stop), ⟨List.mem_cons_self, hle, hp⟩, ?_⟩
      rintro range ⟨hmem, hbegun, -⟩
      rcases List.mem_cons.1 hmem with rfl | hmem
      · rfl
      · have hlater := hrest.le_of_mem hmem
        omega
    · obtain ⟨range, ⟨hmem, hin⟩, hunique⟩ := ih (by omega) hlt
      refine ⟨range, ⟨List.mem_cons_of_mem _ hmem, hin⟩, ?_⟩
      rintro other ⟨hother, hin'⟩
      rcases List.mem_cons.1 hother with rfl | hother
      · exact absurd hin'.2 hp
      · exact hunique other ⟨hother, hin'⟩

theorem tiles_of_starts {starts : List Nat} (hordered : starts.Pairwise (· < ·))
    (hlt : ∀ start ∈ starts, start < size) :
    Tiles (starts.head?.getD size)
      (starts.map fun start => (start, (starts.find? (start < ·)).getD size)) size := by
  induction starts with
  | nil => exact .nil size
  | cons start rest ih =>
    obtain ⟨hbehind, hrest⟩ := List.pairwise_cons.1 hordered
    have hnext : (start :: rest).find? (start < ·) = rest.head? := by
      cases rest with
      | nil => simp
      | cons next rest => simp [hbehind next List.mem_cons_self]
    have hlater : (rest.map fun other => (other, ((start :: rest).find? (other < ·)).getD size)) =
        rest.map fun other => (other, (rest.find? (other < ·)).getD size) := by
      refine List.map_congr_left fun other hother => ?_
      rw [List.find?_cons_of_neg (by have := hbehind other hother; simp; omega)]
    rw [List.map_cons, hnext, hlater]
    refine .cons ?_ (ih hrest fun other hother => hlt other (List.mem_cons_of_mem _ hother))
    cases rest with
    | nil => exact hlt start List.mem_cons_self
    | cons next rest => exact hbehind next List.mem_cons_self

end Tilings

namespace Schema

variable {s : Schema} {start stop p : Nat}

theorem mem_messageStarts : p ∈ s.messageStarts ↔ s.isMessageStart p = true := by
  rw [messageStarts, List.mem_filter, List.mem_range]
  exact ⟨fun h => h.2, fun h => ⟨lt_size_of_isMessageStart h, h⟩⟩

theorem head?_messageStarts (hs : s.LaidOut) (hpos : 0 < s.size) :
    s.messageStarts.head? = some 0 := by
  obtain ⟨f, hf, hstarts⟩ := fragment?_zero hs hpos
  obtain ⟨hzero, -⟩ := fragment?_eq_some hf
  have hmessage : s.isMessageStart 0 = true := by
    rw [startsMessage_of_fragment? hf, ← hzero] at hstarts
    exact hstarts
  obtain ⟨size, hsize⟩ : ∃ size, s.size = size + 1 := ⟨s.size - 1, by omega⟩
  rw [messageStarts, hsize, List.range_succ_eq_map,
    List.filter_cons_of_pos (by simpa using hmessage)]
  rfl

structure MessageSpan (s : Schema) (start stop : Nat) : Prop where
  starts : s.isMessageStart start = true
  lt : start < stop
  le_size : stop ≤ s.size
  inside : ∀ q, start < q → q < stop → s.isMessageStart q = false
  ends : stop = s.size ∨ s.isMessageStart stop = true

theorem messageRange?_of_mem (h : start ∈ s.messageStarts) :
    s.messageRange? start =
      some (start, (s.messageStarts.find? (start < ·)).getD s.size) := by
  rw [messageRange?, if_pos (mem_messageStarts.1 h)]
  rfl

theorem exists_span_of_isMessageStart (h : s.isMessageStart start = true) :
    ∃ stop, s.messageRange? start = some (start, stop) ∧ s.MessageSpan start stop := by
  refine ⟨_, messageRange?_of_mem (mem_messageStarts.2 h), ?_⟩
  have hlt := lt_size_of_isMessageStart h
  cases hnext : s.messageStarts.find? (start < ·) with
  | none =>
    rw [List.find?_eq_none] at hnext
    refine ⟨h, hlt, Nat.le_refl _, fun q hq _ => ?_, .inl rfl⟩
    cases hstarts : s.isMessageStart q with
    | false => rfl
    | true => exact absurd (by simpa using hq) (hnext q (mem_messageStarts.2 hstarts))
  | some next =>
    rw [messageStarts, List.find?_filter, List.find?_range_eq_some] at hnext
    obtain ⟨hfound, -, hnone⟩ := hnext
    simp only [decide_eq_true_eq] at hfound
    refine ⟨h, hfound.2, Nat.le_of_lt (lt_size_of_isMessageStart hfound.1), fun q hq hlt => ?_,
      .inr hfound.1⟩
    have := hnone q hlt
    simpa [hq] using this

theorem messageRange?_of_forall_ne {message : Int}
    (h : ∀ start ∈ s.messageStarts, message ≠ start) : s.messageRange? message = none := by
  rw [messageRange?, if_neg]
  intro hstarts
  cases message with
  | negSucc n => simp [isMessageStart, at?] at hstarts
  | ofNat n => exact h n (mem_messageStarts.2 hstarts) rfl

theorem tiles_messageRange? (hs : s.LaidOut) (hpos : 0 < s.size) :
    ∃ ranges, (s.messageStarts.map fun start : Nat => s.messageRange? start) = ranges.map some ∧
      Tiles 0 ranges s.size := by
  have hordered : s.messageStarts.Pairwise (· < ·) := List.pairwise_lt_range.filter _
  have htiles := tiles_of_starts hordered fun start hstart =>
    lt_size_of_isMessageStart (mem_messageStarts.1 hstart)
  rw [head?_messageStarts hs hpos] at htiles
  refine ⟨_, ?_, htiles⟩
  rw [List.map_map]
  exact List.map_congr_left fun start hstart => messageRange?_of_mem hstart

theorem exists_fragmentAt (hs : s.LaidOut) (h : s.isMessageStart p = true) :
    ∃ head extent, s.FragmentAt p head extent := by
  obtain ⟨f, hf⟩ := exists_fragment_of_isMessageStart hs h
  obtain ⟨hstart, head, extent, hhead, hextent, -⟩ := fragment?_eq_some hf
  obtain rfl : p = f.start := by omega
  exact ⟨head, extent, hhead, hextent⟩

section Messages

variable (hs : s.LaidOut) (hspan : s.MessageSpan start stop)

include hs hspan

/-- Up to the next start a row of messages goes on with one message. -/
theorem MessageSpan.stop_eq {m : Message} {rest : List Token}
    (h : s.tokens.drop start = m.tokens ++ rest) (houtside : s.around start = ⟨[], [], none⟩) :
    stop = start + m.tokens.length := by
  have hsize : start + m.tokens.length ≤ s.size := by
    have hlength := congrArg List.length h
    have hlt := lt_size_of_isMessageStart hspan.starts
    rw [List.length_drop, length_tokens, List.length_append] at hlength
    omega
  rcases Nat.lt_trichotomy stop (start + m.tokens.length) with hbefore | heq | hbehind
  · rcases hspan.ends with hend | hstarts
    · omega
    · rw [isMessageStart_of_groups hs (groups_message h houtside hspan.lt hbefore)] at hstarts
      cases hstarts
  · exact heq
  · have hlength := m.length_tokens
    have hnext := hspan.inside (start + m.tokens.length) (by omega) hbehind
    rcases dueAt_of_outside hs (around_message h houtside) with hend | hstarts
    · have := hspan.le_size
      omega
    · rw [hnext] at hstarts
      cases hstarts

theorem MessageSpan.exists_message {messages : List Message}
    (h : s.tokens = messages.flatMap Message.tokens) :
    ∃ m : Message, (s.tokens.drop start).take (stop - start) = m.tokens := by
  obtain ⟨m, rest, hdrop, houtside, -⟩ :=
    Schema.exists_message hs messages (p := 0) h rfl (Nat.zero_le _) hspan.starts
  refine ⟨m, ?_⟩
  rw [hspan.stop_eq hs hdrop houtside, Nat.add_sub_cancel_left, hdrop, List.take_left]

theorem MessageSpan.encloses {first : Nat} {head : Entry} {extent : Extent}
    (hf : s.FragmentAt first head extent) (hfirst : first ≤ p) (hlast : p < first + extent.tokens)
    (hstart : start ≤ p) (hstop : p < stop) : start ≤ first ∧ first + extent.tokens ≤ stop := by
  constructor
  · refine Nat.le_of_not_lt fun hbefore => ?_
    obtain ⟨head', extent', hf'⟩ := exists_fragmentAt hs hspan.starts
    have hapart := hf.disjoint hs hf' hbefore
    omega
  · rcases hspan.ends with hend | hstarts
    · rw [hend]
      exact (hf.run hs).2
    · obtain ⟨head', extent', hf'⟩ := exists_fragmentAt hs hstarts
      exact hf.disjoint hs hf' (by omega)

end Messages

def NamedAt (s : Schema) (name : String) (position : Nat) : Prop :=
  ∃ e, s.entries[position]? = some e ∧ e.token.isGroup = false ∧ e.name = name

structure FirstNamed (s : Schema) (start stop : Nat) (name : String) (position : Nat) : Prop where
  start_le : start ≤ position
  lt_stop : position < stop
  named : s.NamedAt name position
  first : ∀ q, start ≤ q → q < position → ¬ s.NamedAt name q

/-- The locator leads to the words of a token, in a fragment of the message from `start` to `stop`.
They lie in front of the trailer and, where the message begins, behind its id. -/
structure Leads (s : Schema) (start stop position : Nat) (e : Entry) (loc : Locator) : Prop where
  locator : e.locator? = some loc
  placement : e.placement = some ⟨loc.depth, loc.offset⟩
  depth_lt : loc.depth < s.maxFragmentDepth
  fragment : ∃ first head extent, s.FragmentAt first head extent ∧ start ≤ first ∧
    first + extent.tokens ≤ stop ∧ first ≤ position ∧ position < first + extent.tokens ∧
    loc.offset + e.token.words < extent.words ∧ (first = start → s.templateOffset < loc.offset)

section Names

variable {name : String} {e : Entry}

/-- The search for a name inside a message stops at the first token that has it and is no group. -/
theorem find?_positionsNamed : ((s.positionsNamed (start, stop) name).find? fun i =>
      s.entries[i]?.any fun e => !e.token.isGroup) = some p ↔ s.FirstNamed start stop name p := by
  have hnamed : ∀ i, (((s.entries[i]?.map Entry.name) == some name) = true ∧
      (s.entries[i]?.any fun e => !e.token.isGroup) = true) ↔ s.NamedAt name i := by
    intro i
    unfold NamedAt
    cases s.entries[i]? with
    | none => simp
    | some e => simp [and_comm]
  rw [positionsNamed, List.find?_filter, List.find?_range'_eq_some, List.mem_range'_1]
  simp only [hnamed, decide_eq_true_eq, Bool.not_eq_true', decide_eq_false_iff_not]
  constructor
  · rintro ⟨hp, ⟨hstart, hstop⟩, hfirst⟩
    exact ⟨hstart, by omega, hp, hfirst⟩
  · rintro ⟨hstart, hstop, hp, hfirst⟩
    exact ⟨hp, ⟨hstart, by omega⟩, hfirst⟩

theorem exists_fragment_of_isGroup_eq_false (hs : s.LaidOut) (he : s.entries[p]? = some e)
    (hgroup : e.token.isGroup = false) :
    ∃ first head extent, s.FragmentAt first head extent ∧ first ≤ p ∧
      p < first + extent.tokens := by
  refine (covered hs he).1 ?_
  cases hplace : e.placement with
  | some place => rfl
  | none =>
    obtain ⟨kind, hrole⟩ := between hs he hplace
    have hclosing : e.token.isClosing = true := Token.isClosing_of_role hrole
    rw [Token.isClosing, hgroup] at hclosing
    cases hclosing

theorem MessageSpan.leads (hs : s.LaidOut) (hspan : s.MessageSpan start stop)
    (hoffset : 0 ≤ s.templateOffset)
    (hwords : ∀ e ∈ s.entries, e.fragmentWords ≤ Int32.maxValue.toInt)
    (he : s.entries[p]? = some e) (hgroup : e.token.isGroup = false) (hstart : start ≤ p)
    (hstop : p < stop) : ∃ loc, s.Leads start stop p e loc := by
  obtain ⟨first, head, extent, hf, hfirst, hlast⟩ :=
    exists_fragment_of_isGroup_eq_false hs he hgroup
  obtain ⟨draft, hdraft, hplace, -⟩ := hf.offset hs hfirst hlast he
  obtain ⟨hlow, hhigh⟩ := hf.words_between hs hfirst hlast he hdraft
  obtain ⟨hbegun, hended⟩ := hspan.encloses hs hf hfirst hlast hstart hstop
  have hle : extent.words ≤ Int32.maxValue.toInt := by
    have hcounted := hwords head (Array.mem_of_getElem? hf.1)
    rwa [Entry.fragmentWords, hf.2] at hcounted
  rw [toInt_maxValue] at hle
  have hnonneg : 0 ≤ draft.words := by
    refine Int.le_trans ?_ hlow
    split <;> omega
  have hnat : (draft.words.toNat : Int) = draft.words := Int.toNat_of_nonneg hnonneg
  refine ⟨⟨draft.depth, draft.words.toNat⟩, ?locator, ?placement, (depth hs he hplace).2, first,
    head, extent, hf, hbegun, hended, hfirst, hlast, ?before, ?behind⟩
  case locator => rw [Entry.locator?, hplace, Option.map_some, Int.emod_eq_of_lt hnonneg (by omega)]
  case placement => rw [hnat, hplace]
  case before =>
    rw [hnat]
    omega
  case behind =>
    rintro rfl
    rw [if_pos hspan.starts] at hlow
    rw [hnat]
    omega

/-- A name is found in a message exactly if a token of it that is no group has the name, and what is
found leads to the first such token. -/
theorem MessageSpan.fieldLocator? (hs : s.LaidOut) (hspan : s.MessageSpan start stop)
    (hrange : s.messageRange? start = some (start, stop)) (hoffset : 0 ≤ s.templateOffset)
    (hwords : ∀ e ∈ s.entries, e.fragmentWords ≤ Int32.maxValue.toInt) (name : String) :
    ((s.fieldLocator? start name).isSome = true ↔
        ∃ p, start ≤ p ∧ p < stop ∧ s.NamedAt name p) ∧
      ∀ loc, s.fieldLocator? start name = some loc → ∃ p e, s.FirstNamed start stop name p ∧
        s.entries[p]? = some e ∧ s.Leads start stop p e loc := by
  have hlookup : s.fieldLocator? start name =
      ((s.positionsNamed (start, stop) name).find? fun i =>
        s.entries[i]?.any fun e => !e.token.isGroup).bind s.locator? := by
    rw [Schema.fieldLocator?, hrange]
    rfl
  rw [hlookup]
  cases hfind : (s.positionsNamed (start, stop) name).find? fun i =>
      s.entries[i]?.any fun e => !e.token.isGroup with
  | none =>
    refine ⟨⟨nofun, ?_⟩, nofun⟩
    rintro ⟨p, hstart, hstop, e, he, hgroup, hname⟩
    rw [List.find?_eq_none] at hfind
    refine absurd ?_ (hfind p ?_)
    · simp [he, hgroup]
    · rw [positionsNamed, List.mem_filter, List.mem_range'_1]
      exact ⟨⟨hstart, by omega⟩, by simp [he, hname]⟩
  | some p =>
    have hfirst := find?_positionsNamed.1 hfind
    obtain ⟨e, he, hgroup, -⟩ := hfirst.named
    obtain ⟨loc, hleads⟩ :=
      hspan.leads hs hoffset hwords he hgroup hfirst.start_le hfirst.lt_stop
    have hfound : s.locator? p = some loc := by
      rw [Schema.locator?, he]
      exact hleads.locator
    rw [Option.bind_some, hfound]
    refine ⟨⟨fun _ => ⟨p, hfirst.start_le, hfirst.lt_stop, hfirst.named⟩, fun _ => rfl⟩, ?_⟩
    intro other hother
    cases hother
    exact ⟨p, e, hfirst, he, hleads⟩

end Names

theorem Compiled.exists_messages (hs : s.Compiled) (hsimple : s.isSimple = false) :
    ∃ messages : List Message, s.tokens = messages.flatMap Message.tokens := by
  obtain ⟨script, hscript⟩ := hs.exists_script
  cases script with
  | bracketed messages => exact ⟨messages, hscript.symm⟩
  | flat tokens roles =>
    have hplain : s.isSimple = true := isSimple_of_tokens fun token htoken =>
      Token.isStructural_of_plain (roles token
        (by rw [show tokens = s.tokens from hscript]; exact htoken))
    rw [hsimple] at hplain
    cases hplain

/-- The ranges of the messages lie end to end over the script, and in a bracketed script each of
them is a message from its opening to its close. A name that is looked up in a message is found
exactly if a token of that message has it and is no group. What is found is the first such token, in
a fragment of the same message. Where no message begins nothing is found. The words of each fragment
are counted in a signed word. -/
theorem lookups_within_message (hs : s.Compiled) (hoffset : 0 ≤ s.templateOffset)
    (hwords : ∀ e ∈ s.entries, e.fragmentWords ≤ Int32.maxValue.toInt) :
    (∃ ranges, (s.messageStarts.map fun start : Nat => s.messageRange? start) = ranges.map some ∧
      Tiles 0 ranges s.size ∧
      ∀ p < s.size, ∃! range, range ∈ ranges ∧ range.1 ≤ p ∧ p < range.2) ∧
    (∀ start ∈ s.messageStarts, ∃ stop, s.messageRange? start = some (start, stop) ∧
      (s.isSimple = false → ∃ m : Message, (s.tokens.drop start).take (stop - start) = m.tokens) ∧
      ∀ name,
        ((s.fieldLocator? start name).isSome = true ↔
          ∃ p, start ≤ p ∧ p < stop ∧ s.NamedAt name p) ∧
        ∀ loc, s.fieldLocator? start name = some loc → ∃ p e, s.FirstNamed start stop name p ∧
          s.entries[p]? = some e ∧ s.Leads start stop p e loc) ∧
    ∀ message : Int, (∀ start ∈ s.messageStarts, message ≠ start) →
      s.messageRange? message = none ∧ ∀ name, s.fieldLocator? message name = none := by
  have hlaid := hs.laidOut
  refine ⟨?_, fun start hstart => ?_, fun message hnone => ?_⟩
  · obtain ⟨ranges, hranges, htiles⟩ := tiles_messageRange? hlaid hs.size_pos
    exact ⟨ranges, hranges, htiles, fun p hp => htiles.existsUnique (Nat.zero_le _) hp⟩
  · obtain ⟨stop, hrange, hspan⟩ := exists_span_of_isMessageStart (mem_messageStarts.1 hstart)
    refine ⟨stop, hrange, fun hsimple => ?_, hspan.fieldLocator? hlaid hrange hoffset hwords⟩
    obtain ⟨messages, hmessages⟩ := hs.exists_messages hsimple
    exact hspan.exists_message hlaid hmessages
  · have hrange := messageRange?_of_forall_ne hnone
    refine ⟨hrange, fun name => ?_⟩
    rw [Schema.fieldLocator?, hrange]
    rfl

/-- Two messages that share a name; only the first has a maker, and that behind its sequence. -/
def sides : Schema where
  entries := #[
    ⟨.build .group Token.templateBit 0, "Bid", some ⟨0, 1⟩, some ⟨3, 2⟩, none, true⟩,
    ⟨.build .sequenceLength 0 1, "Levels", some ⟨0, 1⟩, none, some 5, false⟩,
    ⟨.build .group Token.sequenceBit 2, "Levels", some ⟨1, 0⟩, some ⟨4, 3⟩, none, false⟩,
    ⟨.build (.value .decimal false) 0 3, "Price", some ⟨1, 0⟩, none, none, false⟩,
    ⟨.build .group (Token.sequenceBit + Token.closeBit) 4, "Levels", some ⟨1, 3⟩, none, none,
      false⟩,
    ⟨.build (.value .byteArray false) 0 5, "Maker", some ⟨0, 0⟩, some ⟨3, 2⟩, none, false⟩,
    ⟨.build .group (Token.templateBit + Token.closeBit) 6, "Bid", some ⟨0, 2⟩, none, none, false⟩,
    ⟨.build .group Token.templateBit 7, "Ask", some ⟨0, 1⟩, some ⟨4, 3⟩, none, true⟩,
    ⟨.build (.value .longSigned false) 0 8, "Price", some ⟨0, 1⟩, none, none, false⟩,
    ⟨.build .group (Token.templateBit + Token.closeBit) 9, "Ask", some ⟨0, 3⟩, none, none, false⟩]
  templateOffset := 0

theorem compiled_sides : sides.Compiled :=
  have h : ofDeclarations [.beginMessage "Bid", .beginSequence "Levels",
      .field "Price" (.value .decimal false), .endSequence,
      .field "Maker" (.value .byteArray false), .endMessage, .beginMessage "Ask",
      .field "Price" (.value .longSigned false), .endMessage] = .ok sides := rfl
  .declarations h

/-- The maker is found behind the sequence of its message, and each price in its own message. -/
theorem lookups_within_message_sides :
    sides.Compiled ∧ 0 ≤ sides.templateOffset ∧
      (∀ e ∈ sides.entries, e.fragmentWords ≤ Int32.maxValue.toInt) ∧
      (∃ p e, sides.FirstNamed 0 7 "Maker" p ∧ sides.entries[p]? = some e ∧
        sides.Leads 0 7 p e ⟨0, 0⟩) ∧
      (∃ p e, sides.FirstNamed 7 10 "Price" p ∧ sides.entries[p]? = some e ∧
        sides.Leads 7 10 p e ⟨0, 1⟩) ∧
      sides.fieldLocator? (7 : Nat) "Maker" = none := by
  have hwords : ∀ e ∈ sides.entries, e.fragmentWords ≤ Int32.maxValue.toInt := by decide
  obtain ⟨-, hmessages, -⟩ := lookups_within_message compiled_sides (by decide) hwords
  obtain ⟨stop, hrange, -, hbid⟩ := hmessages 0 (by decide)
  obtain rfl : 7 = stop := congrArg Prod.snd (Option.some.inj hrange)
  obtain ⟨stop, hrange, -, hask⟩ := hmessages 7 (by decide)
  obtain rfl : 10 = stop := congrArg Prod.snd (Option.some.inj hrange)
  exact ⟨compiled_sides, by decide, hwords, (hbid "Maker").2 ⟨0, 0⟩ rfl,
    (hask "Price").2 ⟨0, 1⟩ rfl, rfl⟩

end Schema

end FragmentPipe
