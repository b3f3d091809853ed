import FragmentPipe.Pipe.Read
import FragmentPipe.Proofs.Script.Fragments

set_option autoImplicit false

/-!
# Where a reader stands

The place of a reader is the script position that it looks at and the list of its open sequences.
How the place moves depends on the script and on the sequence lengths read alone, so it can be
followed without the ring. The consumer's cursor and array stack move the same way.
-/
namespace FragmentPipe

def finishFrame : List (SequenceFrame Nat) → Option Nat × List (SequenceFrame Nat)
  | [] => (none, [])
  | frame :: rest =>
    if 1 < frame.remaining then (some frame.body, ⟨frame.remaining - 1, frame.body⟩ :: rest)
    else (none, rest)

structure Place where
  position : Nat
  frames : List (SequenceFrame Nat)
deriving DecidableEq, Repr

def Place.settle : List Entry → Nat → List (SequenceFrame Nat) → Place
  | [], position, frames => ⟨position, frames⟩
  | e :: rest, position, frames =>
    if e.token.closesSequence then
      match finishFrame frames with
      | (some body, frames) => ⟨body, frames⟩
      | (none, frames) => settle rest (position + 1) frames
    else if e.token.isClosing then settle rest (position + 1) frames
    else ⟨position, frames⟩

namespace Schema

def settle (s : Schema) (position : Nat) (frames : List (SequenceFrame Nat)) : Place :=
  Place.settle (s.entries.toList.drop position) position frames

/-- Where a reader stands after a fragment whose last token is `final`, at `last`. A sequence of no
iterations is passed over. -/
def advance (s : Schema) (last : Nat) (final : Entry) (length : Int)
    (frames : List (SequenceFrame Nat)) : Place :=
  if final.token.isLength then
    if 0 < length then ⟨last + 1, ⟨length, last + 1⟩ :: frames⟩
    else s.settle (final.sequenceEnd.getD 0) frames
  else if final.token.closesSequence then s.settle last frames
  else ⟨last + 1, frames⟩

/-- The frames are those of the sequences that are open at the position, none of them used up. -/
structure Within (s : Schema) (place : Place) : Prop where
  le_size : place.position ≤ s.size
  bodies : place.frames.map SequenceFrame.body = (s.context place.position).bodies
  remaining : ∀ frame ∈ place.frames, 1 ≤ frame.remaining

structure Passes (s : Schema) (place : Place) : Prop extends s.Within place where
  draft : (s.context place.position).draft = none

structure Rests (s : Schema) (place : Place) : Prop extends s.Within place where
  begins : place.position = s.size ∨ (s.fragment? place.position).isSome = true

end Schema

theorem finishFrame_eq (sequences : SequenceStack Nat) :
    sequences.finishIteration.1 = (finishFrame sequences.frames).1 ∧
      sequences.finishIteration.2.frames = (finishFrame sequences.frames).2 := by
  cases hf : sequences.frames with
  | nil =>
    rw [sequences.finishIteration_of_nil hf]
    exact ⟨rfl, hf⟩
  | cons frame rest =>
    obtain ⟨hbody, hframes⟩ := sequences.finishIteration_of_cons frame rest hf
    rw [hbody, hframes]
    by_cases hmore : 1 < frame.remaining
    · simp [finishFrame, hmore]
    · simp [finishFrame, hmore]

theorem capacity_finishIteration {α : Type} (sequences : SequenceStack α) :
    sequences.finishIteration.2.capacity = sequences.capacity := by
  unfold SequenceStack.finishIteration
  split
  · simp only
    split
    · split
      · simp [SequenceStack.capacity, SequenceStack.countDown]
      · simp [SequenceStack.capacity, SequenceStack.countDown, SequenceStack.drop]
    · simp [SequenceStack.capacity, SequenceStack.countDown, SequenceStack.drop]
  · rfl

/-- The array stack walks over closes the way the list of its frames does. -/
theorem walkCloses_eq (entries : List Entry) (position : Nat) (sequences : SequenceStack Nat) :
    (walkCloses entries position sequences).1 =
        (Place.settle entries position sequences.frames).position ∧
      (walkCloses entries position sequences).2.frames =
        (Place.settle entries position sequences.frames).frames ∧
      (walkCloses entries position sequences).2.capacity = sequences.capacity := by
  induction entries generalizing position sequences with
  | nil => exact ⟨rfl, rfl, rfl⟩
  | cons e rest ih =>
    obtain ⟨hbody, hframes⟩ := finishFrame_eq sequences
    have hcapacity := capacity_finishIteration sequences
    unfold walkCloses Place.settle
    split
    · generalize sequences.finishIteration = finished at hbody hframes hcapacity
      generalize finishFrame sequences.frames = framed at hbody hframes
      obtain ⟨body, sequences'⟩ := finished
      obtain ⟨body', frames'⟩ := framed
      simp only at hbody hframes hcapacity
      subst hbody hframes
      cases body with
      | some body => exact ⟨rfl, rfl, hcapacity⟩
      | none =>
        obtain ⟨h1, h2, h3⟩ := ih (position + 1) sequences'
        exact ⟨h1, h2, h3.trans hcapacity⟩
    · split
      · exact ih (position + 1) sequences
      · exact ⟨rfl, rfl, rfl⟩

namespace Schema

section Settle

variable {s : Schema} {p : Nat} {e : Entry} {frames : List (SequenceFrame Nat)}

theorem settle_of_getElem? (he : s.entries[p]? = some e) :
    s.settle p frames = Place.settle (e :: s.entries.toList.drop (p + 1)) p frames := by
  have hp : p < s.entries.toList.length := by
    rw [Array.length_toList]
    exact lt_size_of_getElem? he
  have hget : s.entries.toList[p] = e := by
    simpa using (Array.getElem?_eq_some_iff.1 he).2
  rw [settle, List.drop_eq_getElem_cons hp, hget]

theorem settle_of_closesSequence (he : s.entries[p]? = some e)
    (h : e.token.closesSequence = true) :
    s.settle p frames =
      match finishFrame frames with
      | (some body, frames) => ⟨body, frames⟩
      | (none, frames) => s.settle (p + 1) frames := by
  rw [settle_of_getElem? he, Place.settle, if_pos h]
  rfl

theorem settle_of_isClosing (he : s.entries[p]? = some e) (h : e.token.isClosing = true)
    (hs : e.token.closesSequence = false) : s.settle p frames = s.settle (p + 1) frames := by
  rw [settle_of_getElem? he, Place.settle, if_neg (by simp [hs]), if_pos h]
  rfl

theorem settle_of_not_closing (he : s.entries[p]? = some e) (h : e.token.isClosing = false) :
    s.settle p frames = ⟨p, frames⟩ := by
  have hs : e.token.closesSequence = false := by
    rw [Token.closesSequence, h]
    rfl
  rw [settle_of_getElem? he, Place.settle, if_neg (by simp [hs]), if_neg (by simp [h])]

theorem settle_of_size_le (h : s.size ≤ p) : s.settle p frames = ⟨p, frames⟩ := by
  rw [settle, List.drop_eq_nil_of_le (by rw [Array.length_toList]; exact h)]
  rfl

theorem isClosing_of_closesSequence {token : Token} (h : token.closesSequence = true) :
    token.isClosing = true := by
  rw [Token.closesSequence, Bool.and_eq_true] at h
  exact h.1

theorem Passes.behind_close (h : s.Passes ⟨p, frames⟩) (he : s.entries[p]? = some e)
    (hclosing : e.token.isClosing = true) (hcloses : e.token.closesSequence = false) :
    s.Passes ⟨p + 1, frames⟩ := by
  obtain ⟨kind, hrole, hsequence⟩ := role_of_isClosing hclosing
  have hholder : (s.context p).holder s.templateOffset p e.token = none := by
    rw [Context.holder_of_none _ _ _ _ h.draft, if_pos hclosing]
  have hcontext := s.context_succ he
  rw [Context.after_of_closing _ _ _ _ hrole, hholder, hsequence, hcloses] at hcontext
  refine ⟨⟨lt_size_of_getElem? he, ?_, h.remaining⟩, ?_⟩
  · rw [hcontext]
    exact h.bodies
  · rw [hcontext]
    simp

theorem Within.behind_sequence {frame : SequenceFrame Nat} (h : s.Within ⟨p, frame :: frames⟩)
    (he : s.entries[p]? = some e) (hcloses : e.token.closesSequence = true) :
    s.Passes ⟨p + 1, frames⟩ := by
  obtain ⟨kind, hrole, hsequence⟩ := role_of_isClosing (isClosing_of_closesSequence hcloses)
  have hbodies : frame.body :: frames.map SequenceFrame.body = (s.context p).bodies := h.bodies
  have hcontext := s.context_succ he
  rw [Context.after_of_closing _ _ _ _ hrole, hsequence, hcloses, ← hbodies] at hcontext
  refine ⟨⟨lt_size_of_getElem? he, ?_, ?_⟩, ?_⟩
  · rw [hcontext]
    simp
  · exact fun other hmem => h.remaining other (List.mem_cons_of_mem _ hmem)
  · rw [hcontext]
    simp

theorem Within.exists_frame (hs : s.LaidOut) (h : s.Within ⟨p, frames⟩)
    (he : s.entries[p]? = some e) (hcloses : e.token.closesSequence = true) :
    ∃ frame rest, frames = frame :: rest := by
  obtain ⟨kind, hrole, hsequence⟩ := role_of_isClosing (isClosing_of_closesSequence hcloses)
  have hopen := (hs.closing p e kind he hrole).2 (hsequence.trans hcloses)
  have hbodies := h.bodies
  cases frames with
  | nil => exact absurd hbodies.symm hopen
  | cons frame rest => exact ⟨frame, rest, rfl⟩

theorem Within.repeats (hs : s.LaidOut) {frame : SequenceFrame Nat} {remaining : Int}
    (h : s.Within ⟨p, frame :: frames⟩) (hmore : 1 ≤ remaining) :
    s.Rests ⟨frame.body, ⟨remaining, frame.body⟩ :: frames⟩ := by
  obtain ⟨hinside, hnone, first, hfirst, hbegins⟩ :=
    body_begins hs (show (s.context p).bodies =
      [] ++ frame.body :: frames.map SequenceFrame.body from h.bodies.symm)
  refine ⟨⟨Nat.le_of_lt (lt_size_of_getElem? hfirst), hinside.symm, ?_⟩, .inr ?_⟩
  · intro other hmem
    rcases List.mem_cons.1 hmem with rfl | hrest
    · exact hmore
    · exact h.remaining other (List.mem_cons_of_mem _ hrest)
  · rw [fragment?_isSome_iff hs hfirst, ← hs.extent_isSome _ _ hfirst]
    exact hbegins

theorem Passes.settle (hs : s.LaidOut) (h : s.Passes ⟨p, frames⟩) :
    s.Rests (s.settle p frames) := by
  have hle : p ≤ s.size := h.le_size
  obtain ⟨left, hleft⟩ : ∃ left, p + left = s.size := ⟨s.size - p, by omega⟩
  induction left generalizing p frames with
  | zero =>
    rw [settle_of_size_le (by omega)]
    exact ⟨h.toWithin, .inl hleft⟩
  | succ left ih =>
    obtain ⟨e, he⟩ : ∃ e, s.entries[p]? = some e := exists_entry (by omega)
    by_cases hcloses : e.token.closesSequence = true
    · obtain ⟨frame, rest, rfl⟩ := h.exists_frame hs he hcloses
      rw [settle_of_closesSequence he hcloses]
      by_cases hmore : 1 < frame.remaining
      · simp only [finishFrame, hmore, ↓reduceIte]
        exact h.repeats hs (by omega)
      · simp only [finishFrame, hmore, ↓reduceIte]
        exact ih (h.behind_sequence he hcloses) (by omega) (by omega)
    · by_cases hclosing : e.token.isClosing = true
      · rw [settle_of_isClosing he hclosing (by simpa using hcloses)]
        exact ih (h.behind_close he hclosing (by simpa using hcloses)) (by omega) (by omega)
      · rw [settle_of_not_closing he (by simpa using hclosing)]
        exact ⟨h.toWithin, .inr ((fragment?_isSome_iff hs he).2 ⟨h.draft, by simpa using hclosing⟩)⟩

theorem Within.settle (hs : s.LaidOut) (h : s.Within ⟨p, frames⟩) (he : s.entries[p]? = some e)
    (hcloses : e.token.closesSequence = true) : s.Rests (s.settle p frames) := by
  obtain ⟨frame, rest, rfl⟩ := h.exists_frame hs he hcloses
  rw [settle_of_closesSequence he hcloses]
  by_cases hmore : 1 < frame.remaining
  · simp only [finishFrame, hmore, ↓reduceIte]
    exact h.repeats hs (by omega)
  · simp only [finishFrame, hmore, ↓reduceIte]
    exact (h.behind_sequence he hcloses).settle hs

end Settle

section Advance

variable {s : Schema} {start last : Nat} {final : Entry} {frames : List (SequenceFrame Nat)}

/-- A fragment ends with a length, with the close of a sequence or of a template, or with the
script. -/
theorem Span.ends_outside (hs : s.LaidOut) (hspan : s.Span start last)
    (hfinal : s.entries[last]? = some final) (hlength : final.token.isLength = false)
    (hcloses : final.token.closesSequence = false) :
    last + 1 = s.size ∨
      (s.context (last + 1)).groups = [] ∧ (s.context (last + 1)).draft = none := by
  rcases hspan.ends with hnone | hsize
  · obtain ⟨draft, hdraft, -⟩ := hspan.held last hspan.le (Nat.le_refl _)
    rw [heldAt_eq hfinal] at hdraft
    rw [Token.isLength_eq] at hlength
    rw [Token.closesSequence_eq] at hcloses
    refine .inr ⟨?_, hnone⟩
    rw [s.context_succ hfinal] at hnone ⊢
    cases hr : final.token.role with
    | length => simp [hr, TokenRole.isLength] at hlength
    | plain =>
      rw [Context.after_of_plain _ _ _ _ hr, hdraft] at hnone
      cases hnone
    | opening kind =>
      rw [Context.after_of_opening _ _ _ _ hr, hdraft] at hnone
      cases hnone
    | closing kind =>
      rw [hr] at hcloses
      rw [Context.after_of_closing _ _ _ _ hr, hdraft] at hnone ⊢
      obtain ⟨⟨outer, hgroups, htemplate⟩, -⟩ := hs.closing last final kind hfinal hr
      cases ht : kind.template with
      | true => rw [hgroups, htemplate ht, List.tail_cons]
      | false =>
        simp only [TokenRole.closesSequence] at hcloses
        simp [ht, hcloses] at hnone
  · exact .inl hsize

theorem bodies_behind (hfinal : s.entries[last]? = some final)
    (hlength : final.token.isLength = false) (hcloses : final.token.closesSequence = false) :
    (s.context (last + 1)).bodies = (s.context last).bodies := by
  rw [Token.isLength_eq] at hlength
  rw [Token.closesSequence_eq] at hcloses
  rw [context, bodies_contextAt_succ _ (by rw [getElem?_tokens, hfinal]; rfl)]
  cases hr : final.token.role with
  | length => simp [hr, TokenRole.isLength] at hlength
  | plain | opening kind => rfl
  | closing kind =>
    simp only [hr, TokenRole.closesSequence] at hcloses
    simp [hcloses, context]

/-- A reader that leaves a fragment comes to rest again. -/
theorem Rests.advance (hs : s.LaidOut) (h : s.Rests ⟨start, frames⟩) (hspan : s.Span start last)
    (hfinal : s.entries[last]? = some final) (length : Int) :
    s.Rests (s.advance last final length frames) := by
  have hlast : s.Within ⟨last, frames⟩ :=
    ⟨Nat.le_of_lt hspan.lt_size, h.bodies.trans (hspan.bodies last hspan.le (Nat.le_refl _)).symm,
      h.remaining⟩
  unfold Schema.advance
  by_cases hlength : final.token.isLength = true
  · have hrole : final.token.role = .length := Token.role_of_isLength hlength
    rw [if_pos hlength]
    by_cases hmore : 0 < length
    · have hcontext := s.context_succ hfinal
      rw [Context.after_of_length _ _ _ _ hrole] at hcontext
      have hinside : s.Within ⟨last + 1, ⟨length, last + 1⟩ :: frames⟩ := by
        refine ⟨hspan.lt_size, ?_, ?_⟩
        · rw [hcontext, List.map_cons, hlast.bodies]
        · intro other hmem
          rcases List.mem_cons.1 hmem with rfl | hrest
          · exact hmore
          · exact h.remaining other hrest
      rw [if_pos hmore]
      exact hinside.repeats hs hmore
    · obtain ⟨stop, hstop, hle, -, hbodies, hdraft, -⟩ := hs.sequenceEnd last final hfinal hrole
      rw [if_neg hmore, hstop]
      exact Passes.settle hs ⟨⟨hle, hlast.bodies.trans hbodies.symm, h.remaining⟩, hdraft⟩
  · rw [if_neg hlength]
    by_cases hcloses : final.token.closesSequence = true
    · rw [if_pos hcloses]
      exact hlast.settle hs hfinal hcloses
    · rw [if_neg hcloses]
      have hlength' : final.token.isLength = false := by simpa using hlength
      have hcloses' : final.token.closesSequence = false := by simpa using hcloses
      refine ⟨⟨hspan.lt_size, ?_, h.remaining⟩, ?_⟩
      · exact hlast.bodies.trans (bodies_behind hfinal hlength' hcloses').symm
      · rcases hspan.ends_outside hs hfinal hlength' hcloses' with hsize | ⟨hgroups, hnone⟩
        · exact .inl hsize
        · by_cases hsize : last + 1 = s.size
          · exact .inl hsize
          · have hlt := hspan.lt_size
            obtain ⟨next, hnext⟩ : ∃ next, s.entries[last + 1]? = some next :=
              exists_entry (by omega)
            refine .inr ((fragment?_isSome_iff hs hnext).2 ⟨hnone, ?_⟩)
            cases hclosing : next.token.isClosing with
            | false => rfl
            | true =>
              obtain ⟨kind, hrole, -⟩ := role_of_isClosing hclosing
              obtain ⟨⟨outer, hopen, -⟩, -⟩ := hs.closing _ next kind hnext hrole
              rw [hgroups] at hopen
              cases hopen

theorem Within.frames_eq_nil (hs : s.LaidOut) {place : Place} (h : s.Within place)
    (hdue : s.size ≤ place.position ∨ s.isMessageStart place.position = true) :
    place.frames = [] := by
  have hbodies : (s.context place.position).bodies = [] := by
    rcases hdue with hsize | hstart
    · rw [Nat.le_antisymm h.le_size hsize]
      exact bodies_size hs
    · exact bodies_of_isMessageStart hs hstart
  have hmap := h.bodies
  rw [hbodies] at hmap
  exact List.map_eq_nil_iff.1 hmap

end Advance

end Schema

end FragmentPipe
