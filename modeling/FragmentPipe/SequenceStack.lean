set_option autoImplicit false

namespace FragmentPipe

structure SequenceFrame (α : Type) where
  remaining : Int
  body : α
deriving DecidableEq, Repr

structure SequenceStack (α : Type) where
  slots : Array (SequenceFrame α)
  depth : Nat
  depth_le : depth ≤ slots.size

namespace SequenceStack

variable {α : Type}

def withCapacity (capacity : Nat) (fill : α) : SequenceStack α :=
  ⟨Array.replicate capacity ⟨0, fill⟩, 0, Nat.zero_le _⟩

def capacity (s : SequenceStack α) : Nat := s.slots.size

def isEmpty (s : SequenceStack α) : Bool := s.depth == 0

def frames (s : SequenceStack α) : List (SequenceFrame α) :=
  (s.slots.toList.take s.depth).reverse

def push (s : SequenceStack α) (frame : SequenceFrame α) : Option (SequenceStack α) :=
  if h : s.depth < s.slots.size then
    some ⟨s.slots.set s.depth frame h, s.depth + 1, by rw [Array.size_set]; exact h⟩
  else none

def innermost? (s : SequenceStack α) : Option (SequenceFrame α) :=
  if s.depth = 0 then none else s.slots[s.depth - 1]?

def remaining? (s : SequenceStack α) : Option Int := s.innermost?.map SequenceFrame.remaining

def countDown (s : SequenceStack α) (h : 0 < s.depth) : SequenceStack α :=
  have slot : s.depth - 1 < s.slots.size := by have := s.depth_le; omega
  let frame := s.slots[s.depth - 1]
  ⟨s.slots.set (s.depth - 1) { frame with remaining := frame.remaining - 1 } slot, s.depth,
    by rw [Array.size_set]; exact s.depth_le⟩

def drop (s : SequenceStack α) : SequenceStack α :=
  ⟨s.slots, s.depth - 1, by have := s.depth_le; omega⟩

/-- Consume one iteration of the innermost sequence. While iterations remain the answer is where the
body begins; after the last one the frame is gone. -/
def finishIteration (s : SequenceStack α) : Option α × SequenceStack α :=
  if h : 0 < s.depth then
    let counted := s.countDown h
    match counted.innermost? with
    | some frame => if 0 < frame.remaining then (some frame.body, counted) else (none, counted.drop)
    | none => (none, counted.drop)
  else (none, s)

def clear (s : SequenceStack α) : SequenceStack α := ⟨s.slots, 0, Nat.zero_le _⟩

@[simp] theorem frames_withCapacity (capacity : Nat) (fill : α) :
    (withCapacity capacity fill).frames = [] := by
  simp [frames, withCapacity]

@[simp] theorem frames_clear (s : SequenceStack α) : s.clear.frames = [] := by
  simp [frames, clear]

theorem length_frames (s : SequenceStack α) : s.frames.length = s.depth := by
  have := s.depth_le
  simp [frames]
  omega

theorem frames_push {s t : SequenceStack α} {frame : SequenceFrame α} (h : s.push frame = some t) :
    t.frames = frame :: s.frames := by
  unfold push at h
  split at h
  · rename_i hlt
    cases h
    have hset : (s.slots.toList.set s.depth frame).take (s.depth + 1) =
        s.slots.toList.take s.depth ++ [frame] := by
      rw [List.take_add_one, List.take_set_of_le (Nat.le_refl _)]
      simp [hlt]
    simp only [frames, Array.toList_set]
    rw [hset]
    simp
  · cases h

theorem capacity_push {s t : SequenceStack α} {frame : SequenceFrame α}
    (h : s.push frame = some t) : t.capacity = s.capacity := by
  unfold push at h
  split at h
  · cases h
    simp [capacity]
  · cases h

theorem push_isSome_iff (s : SequenceStack α) (frame : SequenceFrame α) :
    (s.push frame).isSome ↔ s.depth < s.capacity := by
  unfold push capacity
  split <;> simp_all

theorem frames_of_pos (s : SequenceStack α) (h : 0 < s.depth) (hs : s.depth - 1 < s.slots.size) :
    s.frames = s.slots[s.depth - 1] :: s.drop.frames := by
  unfold frames drop
  have hsplit : s.slots.toList.take s.depth =
      s.slots.toList.take (s.depth - 1) ++ [s.slots[s.depth - 1]] := by
    obtain ⟨d, hd⟩ : ∃ d, s.depth = d + 1 := ⟨s.depth - 1, by omega⟩
    simp only [hd, Nat.add_sub_cancel]
    rw [List.take_add_one]
    have : d < s.slots.size := by omega
    simp [this]
  rw [hsplit]
  simp

theorem innermost?_eq_head? (s : SequenceStack α) : s.innermost? = s.frames.head? := by
  unfold innermost?
  split
  · rename_i h
    simp [frames, h]
  · rename_i h
    have hle := s.depth_le
    have hs : s.depth - 1 < s.slots.size := by omega
    rw [s.frames_of_pos (by omega) hs]
    simp [hs]

theorem frames_countDown (s : SequenceStack α) (h : 0 < s.depth) :
    ∃ frame rest, s.frames = frame :: rest ∧
      (s.countDown h).frames = ⟨frame.remaining - 1, frame.body⟩ :: rest := by
  have hle := s.depth_le
  have hs : s.depth - 1 < s.slots.size := by omega
  have hs' : (s.countDown h).depth - 1 < (s.countDown h).slots.size := by
    simpa [countDown] using hs
  refine ⟨s.slots[s.depth - 1], s.drop.frames, s.frames_of_pos h hs, ?_⟩
  rw [(s.countDown h).frames_of_pos h hs']
  have hdrop : (s.countDown h).drop.frames = s.drop.frames := by
    simp only [frames, drop, countDown, Array.toList_set]
    rw [List.take_set_of_le (Nat.le_refl _)]
  rw [hdrop]
  simp [countDown]

theorem finishIteration_of_cons (s : SequenceStack α) (frame : SequenceFrame α)
    (rest : List (SequenceFrame α)) (h : s.frames = frame :: rest) :
    s.finishIteration.1 = (if 1 < frame.remaining then some frame.body else none) ∧
      s.finishIteration.2.frames =
        if 1 < frame.remaining then ⟨frame.remaining - 1, frame.body⟩ :: rest else rest := by
  have hpos : 0 < s.depth := by
    have := s.length_frames
    rw [h] at this
    simp at this
    omega
  obtain ⟨frame', rest', hf, hc⟩ := s.frames_countDown hpos
  rw [h] at hf
  cases hf
  have hin : (s.countDown hpos).innermost? = some ⟨frame.remaining - 1, frame.body⟩ := by
    rw [innermost?_eq_head?, hc]
    rfl
  have hdrop : (s.countDown hpos).drop.frames = rest := by
    have hs' : (s.countDown hpos).depth - 1 < (s.countDown hpos).slots.size := by
      have := (s.countDown hpos).depth_le
      have : (s.countDown hpos).depth = s.depth := rfl
      omega
    have := (s.countDown hpos).frames_of_pos hpos hs'
    rw [hc] at this
    exact (List.cons.inj this).2.symm
  unfold finishIteration
  simp only [hpos, ↓reduceDIte, hin]
  by_cases hr : 1 < frame.remaining
  · simp [hr, hc]
  · simp [hr, hdrop]

theorem finishIteration_of_nil (s : SequenceStack α) (h : s.frames = []) :
    s.finishIteration = (none, s) := by
  have hzero : s.depth = 0 := by
    have := s.length_frames
    rw [h] at this
    exact this.symm
  unfold finishIteration
  simp [hzero]

end SequenceStack

end FragmentPipe
