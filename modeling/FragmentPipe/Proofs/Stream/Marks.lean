import FragmentPipe.Mark
import FragmentPipe.Proofs.Stream.Items

set_option autoImplicit false

namespace FragmentPipe

namespace Mark

theorem ext {a b : Mark} (hwords : a.words = b.words) (hbytes : a.bytes = b.bytes) : a = b := by
  cases a
  cases b
  cases hwords
  cases hbytes
  rfl

theorem add_assoc (a b c : Mark) : a + b + c = a + (b + c) :=
  ext (Nat.add_assoc _ _ _) (Nat.add_assoc _ _ _)

theorem add_origin (a : Mark) : a + origin = a := rfl

theorem origin_add (a : Mark) : origin + a = a := ext (Nat.zero_add _) (Nat.zero_add _)

end Mark

def Piece.extent (s : Schema) : Piece → Mark
  | .marker => .ofWords (s.idDistance + 2)
  | .fragment _ _ d =>
    match s.fragment? d.cursor with
    | some f => ⟨f.words, d.bytesAt (s.fieldsOf f)⟩
    | none => .origin

def markAt (s : Schema) : List Piece → Nat → Mark
  | [], _ | _ :: _, 0 => .origin
  | piece :: rest, k + 1 => piece.extent s + markAt s rest k

section

variable {s : Schema} {l : List Piece} {k : Nat} {piece : Piece}

theorem markAt_zero (s : Schema) (l : List Piece) : markAt s l 0 = .origin := by
  cases l <;> rfl

theorem markAt_succ (h : l[k]? = some piece) :
    markAt s l (k + 1) = markAt s l k + piece.extent s := by
  induction l generalizing k with
  | nil => simp at h
  | cons first rest ih =>
    cases k with
    | zero =>
      cases h
      show piece.extent s + markAt s rest 0 = .origin + piece.extent s
      rw [markAt_zero, Mark.origin_add, Mark.add_origin]
    | succ k => rw [markAt, markAt, ih h, Mark.add_assoc]

theorem markAt_mono (s : Schema) (l : List Piece) {j k : Nat} (h : j ≤ k) :
    markAt s l j ≤ markAt s l k := by
  induction l generalizing j k with
  | nil => exact Mark.le_refl _
  | cons first rest ih =>
    cases j with
    | zero => exact ⟨Nat.zero_le _, Nat.zero_le _⟩
    | succ j =>
      cases k with
      | zero => omega
      | succ k =>
        obtain ⟨hwords, hbytes⟩ := ih (show j ≤ k by omega)
        exact ⟨Nat.add_le_add_left hwords _, Nat.add_le_add_left hbytes _⟩

theorem markAt_fragment {m : MessageData} {index : Nat} {d : FragmentData} {f : Fragment}
    (h : l[k]? = some (.fragment m index d)) (hf : s.fragment? d.cursor = some f) :
    (markAt s l (k + 1)).words = (markAt s l k).words + f.words ∧
      (markAt s l (k + 1)).bytes = (markAt s l k).bytes + d.bytesAt (s.fieldsOf f) := by
  rw [markAt_succ h, Piece.extent, hf]
  exact ⟨rfl, rfl⟩

/-- Byte position that the spans of a piece are counted from: where its item begins. -/
def baseAt (s : Schema) (l : List Piece) (k : Nat) (piece : Piece) : Nat :=
  (markAt s l (k - piece.index)).bytes

theorem baseAt_le (s : Schema) (l : List Piece) (k : Nat) (piece : Piece) :
    baseAt s l k piece ≤ (markAt s l k).bytes :=
  (markAt_mono s l (Nat.sub_le _ _)).2

theorem baseAt_of_first (h : piece.index = 0) : baseAt s l k piece = (markAt s l k).bytes := by
  rw [baseAt, h, Nat.sub_zero]

theorem baseAt_succ (m : MessageData) (index : Nat) (d e : FragmentData) :
    baseAt s l (k + 1) (.fragment m (index + 1) e) = baseAt s l k (.fragment m index d) := by
  simp only [baseAt, Piece.index, Nat.add_sub_add_right]

end

end FragmentPipe
