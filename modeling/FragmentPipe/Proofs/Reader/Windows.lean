import FragmentPipe.Proofs.Interchange.Unpublished

set_option autoImplicit false

/-!
# What an error shows of the ring

A read that finds fault with a byte count or a template id reports the words around it. The window
begins one radius before the position, or at zero, and is cut at one capacity from there. In a ring
with more words than the radius it always covers the position. In a smaller one the cut leaves the
position out as soon as the first lap is over, and then no line of the window is marked.
-/
namespace FragmentPipe

structure Exhibit where
  position : Nat
  word : Int32
  window : RingWindow

def PipeError.exhibit? : PipeError → Option Exhibit
  | .badTrailer position count _ window => some ⟨position, count, window⟩
  | .unknownTemplate id position _ window => some ⟨position, id, window⟩
  | _ => none

def markedLine (marked : Bool) (position : Nat) (word : Int32) : String :=
  (if marked then "->" else "  ") ++ " " ++ Text.padLeft ' ' 10 (toString position) ++ " "
    ++ Text.padLeft ' ' 12 (toString word.toInt) ++ " 0x" ++ Text.hex 8 word.toUInt32.toNat ++ "\n"

theorem windowLine_eq (focus position : Nat) (word : Int32) :
    windowLine focus position word = markedLine (position = focus) position word := by
  unfold windowLine markedLine
  by_cases h : position = focus <;> simp [h]

namespace RingWindow

def plainLines (start : Nat) (words : List Int32) : String :=
  String.join (words.mapIdx fun i word => markedLine false (start + i) word)

def Covers (w : RingWindow) (position : Nat) : Prop :=
  w.start ≤ position ∧ position < w.start + w.words.length

variable {w : RingWindow} {focus : Nat}

theorem join_windowLine (focus start : Nat) (words : List Int32)
    (h : ∀ i, i < words.length → start + i ≠ focus) :
    String.join (words.mapIdx fun i word => windowLine focus (start + i) word) =
      plainLines start words := by
  refine congrArg String.join (List.mapIdx_eq_mapIdx_iff.2 fun i hi => ?_)
  rw [windowLine_eq, decide_eq_false (h i hi)]

theorem describe_of_not_covers (h : ¬ w.Covers focus) :
    w.describe focus = plainLines w.start w.words :=
  join_windowLine focus w.start w.words fun i hi heq => h ⟨by omega, by omega⟩

theorem exists_split_of_covers (h : w.Covers focus) :
    ∃ before word behind, w.words = before ++ word :: behind ∧ w.start + before.length = focus := by
  obtain ⟨hlow, hhigh⟩ := h
  have hlt : focus - w.start < w.words.length := by omega
  refine ⟨w.words.take (focus - w.start), w.words[focus - w.start],
    w.words.drop (focus - w.start + 1), ?_, ?_⟩
  · rw [← List.drop_eq_getElem_cons hlt, List.take_append_drop]
  · rw [List.length_take_of_le (Nat.le_of_lt hlt)]
    omega

/-- The line of the position in focus is marked, those before and behind it are not. -/
theorem describe_of_split {before behind : List Int32} {word : Int32}
    (hsplit : w.words = before ++ word :: behind) (hfocus : w.start + before.length = focus) :
    w.describe focus = plainLines w.start before ++
      (markedLine true focus word ++ plainLines (focus + 1) behind) := by
  have hbefore := join_windowLine focus w.start before fun i hi => by omega
  have hbehind := join_windowLine focus (focus + 1) behind fun i _ => by omega
  have hline : windowLine focus (w.start + before.length) word = markedLine true focus word := by
    rw [windowLine_eq, hfocus, decide_eq_true (Eq.refl focus)]
  have hplace : ∀ i, w.start + (i + 1 + before.length) = focus + 1 + i := fun i => by omega
  unfold describe
  rw [hsplit, List.mapIdx_append, List.mapIdx_cons, String.join_append, String.join_cons, hbefore,
    Nat.zero_add, hline, ← hbehind]
  simp only [hplace]

end RingWindow

namespace Ring

variable {r : Ring} {cause : PipeError} {e : Exhibit} {center radius : Nat}

theorem words_window {i : Nat} {word : Int32} (h : (r.window center radius).words[i]? = some word) :
    word = r.word ((r.window center radius).start + i) := by
  unfold window Channel.read at h ⊢
  simp only [List.getElem?_map, Option.map_eq_some_iff] at h
  obtain ⟨j, hj, rfl⟩ := h
  obtain ⟨hlt, rfl⟩ := List.getElem?_eq_some_iff.1 hj
  rw [List.getElem_range]
  rfl

theorem length_window : (r.window center radius).words.length =
    min (center + radius) (center - radius + r.capacity.words) - (center - radius) := by
  simp [window]

theorem length_window_le : (r.window center radius).words.length ≤ r.capacity.words := by
  rw [length_window]
  omega

/-- A window covers the position that it is about if its radius is below the capacity or the
position is within the first lap. -/
theorem covers_window_iff (hradius : 0 < radius) :
    (r.window center radius).Covers center ↔
      radius < r.capacity.words ∨ center < r.capacity.words := by
  unfold RingWindow.Covers
  rw [length_window]
  show center - radius ≤ center ∧ center < center - radius + _ ↔ _
  omega

def Shows (r : Ring) (cause : PipeError) : Prop :=
  ∀ e, cause.exhibit? = some e →
    e.word = r.word e.position ∧ e.window = r.window e.position diagnosticRadius

theorem shows_ofSplit (start size head : Nat) : r.Shows (.ofSplit start size head) :=
  fun _ h => nomatch h

theorem shows_of_trailerAt {position : Nat} (h : r.trailerAt position = .error cause) :
    r.Shows cause := by
  unfold trailerAt at h
  simp only at h
  split at h <;> cases h
  rintro e he
  cases he
  exact ⟨rfl, rfl⟩

theorem shows_of_lengthAt {position : Nat} (h : r.lengthAt position = .error cause) :
    r.Shows cause := by
  unfold lengthAt at h
  simp only at h
  split at h <;> cases h
  exact fun _ he => nomatch he

theorem shows_of_classifyId {schema : Schema} {position : Nat}
    (h : r.classifyId schema (r.word position) position = .error cause) : r.Shows cause := by
  unfold classifyId at h
  split at h
  · cases h
  · split at h <;> cases h
    rintro e he
    cases he
    exact ⟨rfl, rfl⟩

end Ring

namespace Pipe

variable {p : Pipe} {cause : PipeError} {start : Nat} {item : ReadItem}

theorem shows_of_inspect (h : p.inspect start item = .error (.error cause)) :
    p.ring.Shows cause := by
  unfold inspect at h
  cases htrailer : p.ring.trailerAt (start + item.words p.schema - 1) with
  | error found =>
    rw [htrailer] at h
    cases h
    exact Ring.shows_of_trailerAt htrailer
  | ok bytes =>
    rw [htrailer] at h
    cases hfragment : item.fragment? with
    | none =>
      simp only [hfragment] at h
      cases h
    | some fragment =>
      simp only [hfragment] at h
      cases hlast : p.schema.lastOf? fragment with
      | none =>
        simp only [hlast] at h
        cases h
      | some final =>
        simp only [hlast] at h
        split at h
        · cases hlength : p.ring.lengthAt (start + final.2.wordDistance) with
          | error found =>
            simp only [hlength] at h
            cases h
            exact Ring.shows_of_lengthAt hlength
          | ok length =>
            simp only [hlength] at h
            cases h
        · cases h

theorem shows_of_prepare (h : (p.prepare start item).1 = .error (.error cause)) :
    p.ring.Shows cause := by
  unfold prepare at h
  obtain ⟨seen, -, ⟨-, hawait⟩ | ⟨-, -, -, hawait⟩ | ⟨-, -, -, hawait⟩⟩ :=
    p.await_cases start (item.words p.schema)
  · simp only [hawait] at h
    cases hinspect : (p.look seen).inspect start item with
    | error fault =>
      simp only [hinspect] at h
      cases h
      exact shows_of_inspect (p := p.look seen) hinspect
    | ok bytes =>
      simp only [hinspect] at h
      split at h <;> cases h
  · simp only [hawait] at h
    cases h
  · simp only [hawait] at h
    cases h
    exact Ring.shows_ofSplit _ _ _

theorem shows_of_readMessage (h : p.readMessage.1 = .error (.error cause)) :
    p.ring.Shows cause := by
  unfold readMessage at h
  obtain ⟨seen, -, ⟨-, hawait⟩ | ⟨-, -, -, hawait⟩ | ⟨-, -, -, hawait⟩⟩ :=
    p.await_cases p.consumer.next (p.schema.idDistance + 1)
  · simp only [hawait, ring_look, schema_look, itemOf?_look] at h
    split at h
    · rename_i hid
      cases h
      exact Ring.shows_of_classifyId hid
    · split at h
      · exact shows_of_prepare (p := p.look seen) h
      · cases h
  · simp only [hawait] at h
    cases h
  · simp only [hawait] at h
    cases h
    exact Ring.shows_ofSplit _ _ _

theorem shows_of_readContinuation (h : p.readContinuation.1 = .error (.error cause)) :
    p.ring.Shows cause := by
  unfold readContinuation at h
  simp only at h
  split at h
  · cases h
    exact fun _ he => nomatch he
  · exact shows_of_prepare h

theorem shows_of_read (h : p.read.1 = .error (.error cause)) : p.ring.Shows cause := by
  unfold read at h
  split at h
  · exact shows_of_readMessage h
  · exact shows_of_readContinuation h

inductive Reading : Command → Prop where
  | read : Reading .read
  | readMessage : Reading .readMessage
  | readContinuation : Reading .readContinuation

theorem shows_of_reading {command : Command} (h : Reading command)
    (hfailed : (p.run command).1 = .error (.error cause)) : p.ring.Shows cause := by
  have herror : ∀ {result : Except Fault Bool × Pipe},
      (replying .flag result).1 = .error (.error cause) → result.1 = .error (.error cause) := by
    intro result hresult
    obtain ⟨reply, q⟩ := result
    cases reply with
    | error fault => exact congrArg Except.error (Except.error.inj hresult)
    | ok found => cases hresult
  cases h with
  | read => exact shows_of_read (herror hfailed)
  | readMessage => exact shows_of_readMessage (herror hfailed)
  | readContinuation => exact shows_of_readContinuation (herror hfailed)

/-- An error about a byte count or an id tells that word of the ring and a window of at most one
capacity that begins at or before it and holds the ring's own words. The window reaches over the
word if it begins within one capacity of it, which fails in small rings behind the first lap. If it
does, the rendering marks the line of that word alone, else it marks none. -/
theorem window_shows_offence {command : Command} {e : Exhibit} (hcommand : Reading command)
    (hfailed : (p.run command).1 = .error (.error cause)) (he : cause.exhibit? = some e) :
    e.word = p.ring.word e.position ∧ e.window.start ≤ e.position ∧
      e.window.words.length ≤ p.ring.capacity.words ∧
      (∀ i word, e.window.words[i]? = some word → word = p.ring.word (e.window.start + i)) ∧
      (e.window.Covers e.position ↔
        Ring.diagnosticRadius < p.ring.capacity.words ∨ e.position < p.ring.capacity.words) ∧
      (e.window.Covers e.position → ∃ before behind,
        e.window.words = before ++ e.word :: behind ∧
          e.window.start + before.length = e.position ∧
          e.window.describe e.position = RingWindow.plainLines e.window.start before ++
            (markedLine true e.position e.word ++
              RingWindow.plainLines (e.position + 1) behind)) ∧
      (¬ e.window.Covers e.position →
        e.window.describe e.position = RingWindow.plainLines e.window.start e.window.words) := by
  obtain ⟨hword, hwindow⟩ := shows_of_reading hcommand hfailed e he
  have hring : ∀ i word, e.window.words[i]? = some word →
      word = p.ring.word (e.window.start + i) := by
    intro i word hi
    rw [hwindow] at hi ⊢
    exact Ring.words_window hi
  refine ⟨hword, ?_, ?_, hring, ?_, fun hcovers => ?_, RingWindow.describe_of_not_covers⟩
  · rw [hwindow]
    exact Nat.sub_le e.position Ring.diagnosticRadius
  · rw [hwindow]
    exact Ring.length_window_le
  · rw [hwindow]
    exact Ring.covers_window_iff (by decide)
  · obtain ⟨before, word, behind, hsplit, hfocus⟩ := RingWindow.exists_split_of_covers hcovers
    obtain rfl : word = e.word := by
      rw [hword, ← hfocus]
      exact hring before.length word (by rw [hsplit]; simp)
    exact ⟨before, behind, hsplit, hfocus, RingWindow.describe_of_split hsplit hfocus⟩

/-- An unknown id behind the first lap of 32 words stands in the middle of its window. -/
theorem window_shows_offence_book :
    ∃ p, ∃ e : Exhibit, Reachable Schema.book ⟨⟨5, 3⟩, 1⟩ p ∧ e.position = 32 ∧ e.word = 7 ∧
      e.window.Covers e.position ∧ ∃ before behind,
        e.window.words = before ++ 7 :: behind ∧ e.window.start + before.length = 32 := by
  have hbuilt : Reachable Schema.book ⟨⟨5, 3⟩, 1⟩ (fresh Schema.book ⟨⟨5, 3⟩, 1⟩) :=
    .built (build_eq_fresh (by decide +kernel))
  obtain ⟨p, hrun, cause, hfailed, e, he, hcapacity, hposition⟩ :
      ∃ p, Reachable Schema.book ⟨⟨5, 3⟩, 1⟩ p ∧ ∃ cause,
        (p.run .read).1 = .error (.error cause) ∧ ∃ e : Exhibit, cause.exhibit? = some e ∧
          p.ring.capacity.words = 32 ∧ e.position = 32 ∧ e.word = 7 :=
    ⟨_, hbuilt.runAll [.claim 32, .publish, .skip 32, .releaseNow, .storeAhead 0 7, .claim 5,
      .publish], _, rfl, _, rfl, rfl, rfl, rfl⟩
  obtain ⟨-, -, -, -, hcovers, hmarked, -⟩ :=
    window_shows_offence .read hfailed he
  have hshown := hcovers.2 (.inl (by rw [hcapacity]; decide))
  obtain ⟨before, behind, hsplit, hfocus, -⟩ := hmarked hshown
  rw [hposition.2] at hsplit
  rw [hposition.1] at hfocus
  exact ⟨p, e, hrun, hposition.1, hposition.2, hshown, before, behind, hsplit, hfocus⟩

/-- An unknown id right behind the first lap of four words is not in the window of its error. -/
theorem window_misses_offence :
    (Schema.tick 0 .integerSigned).Compiled ∧
      ∃ p, Reachable (.tick 0 .integerSigned) ⟨⟨2, 1⟩, 1⟩ p ∧
        (p.run .read).1 =
          .error (.error (.unknownTemplate 7 4 [0] ⟨0, [7, 0, 0, 0]⟩)) ∧
        ¬ RingWindow.Covers ⟨0, [7, 0, 0, 0]⟩ 4 := by
  have hfields : Schema.ofFields [("Value", .value .integerSigned false)] =
      .ok (.tick 0 .integerSigned) := rfl
  have hbuilt : Reachable (.tick 0 .integerSigned) ⟨⟨2, 1⟩, 1⟩
      (fresh (.tick 0 .integerSigned) ⟨⟨2, 1⟩, 1⟩) := .built (build_eq_fresh (by decide +kernel))
  exact ⟨.fields hfields, _,
    hbuilt.runAll [.claim 4, .publish, .skip 4, .releaseNow, .storeAhead 0 7, .claim 3, .publish],
    rfl, by simp [RingWindow.Covers]⟩

end Pipe

end FragmentPipe
