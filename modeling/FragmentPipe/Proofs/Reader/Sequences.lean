import FragmentPipe.Proofs.Interchange.Leftovers

set_option autoImplicit false

namespace FragmentPipe

namespace SequenceStack

variable {α : Type}

inductive Request (α : Type) where
  | push (frame : SequenceFrame α)
  | finishIteration
  | clear
deriving DecidableEq, Repr

namespace Request

def finishes : Request α → Bool
  | .finishIteration => true
  | .push _ | .clear => false

def onFrames : Request α → List (SequenceFrame α) → Option α × List (SequenceFrame α)
  | .push frame, frames => (none, frame :: frames)
  | .finishIteration, [] => (none, [])
  | .finishIteration, frame :: rest =>
    if 1 < frame.remaining then (some frame.body, ⟨frame.remaining - 1, frame.body⟩ :: rest)
    else (none, rest)
  | .clear, _ => (none, [])

def fits (capacity : Nat) : Request α → List (SequenceFrame α) → Bool
  | .push _, frames => frames.length < capacity
  | .finishIteration, _ | .clear, _ => true

end Request

def handle (s : SequenceStack α) : Request α → Option (Option α × SequenceStack α)
  | .push frame => (s.push frame).map fun t => (none, t)
  | .finishIteration => some s.finishIteration
  | .clear => some (none, s.clear)

def handleAll (s : SequenceStack α) : List (Request α) → Option (List (Option α) × SequenceStack α)
  | [] => some ([], s)
  | request :: rest => do
    let (answer, t) ← s.handle request
    let (answers, u) ← t.handleAll rest
    some (answer :: answers, u)

def onFramesAll : List (Request α) → List (SequenceFrame α) →
    List (Option α) × List (SequenceFrame α)
  | [], frames => ([], frames)
  | request :: rest, frames =>
    let (answer, frames) := request.onFrames frames
    let (answers, frames) := onFramesAll rest frames
    (answer :: answers, frames)

def fitsAll (capacity : Nat) : List (Request α) → List (SequenceFrame α) → Bool
  | [], _ => true
  | request :: rest, frames =>
    request.fits capacity frames && fitsAll capacity rest (request.onFrames frames).2

structure Shows (s : SequenceStack α) (list : List (SequenceFrame α)) : Prop where
  frames : s.frames = list
  depth : s.depth = list.length
  isEmpty : s.isEmpty = list.isEmpty
  remaining? : s.remaining? = list.head?.map SequenceFrame.remaining

section Runs

variable {s t u : SequenceStack α} {request : Request α} {requests : List (Request α)}
  {answer : Option α} {answers : List (Option α)}

theorem shows_frames (s : SequenceStack α) : s.Shows s.frames where
  frames := rfl
  depth := s.length_frames.symm
  isEmpty := by
    rw [SequenceStack.isEmpty, ← s.length_frames]
    cases s.frames <;> rfl
  remaining? := by rw [SequenceStack.remaining?, innermost?_eq_head?]

/-- One request: the stack and the list of its frames give the same answer and stay alike. -/
theorem onFrames_of_handle (h : s.handle request = some (answer, t)) :
    request.onFrames s.frames = (answer, t.frames) ∧ t.capacity = s.capacity := by
  cases request with
  | push frame =>
    obtain ⟨pushed, hpush, hpair⟩ := Option.map_eq_some_iff.1 h
    cases hpair
    exact ⟨by rw [frames_push hpush]; rfl, capacity_push hpush⟩
  | finishIteration =>
    have hpair : s.finishIteration = (answer, t) := Option.some.inj h
    have hcapacity := capacity_finishIteration s
    rw [hpair] at hcapacity
    refine ⟨?_, hcapacity⟩
    cases hf : s.frames with
    | nil =>
      rw [finishIteration_of_nil s hf] at hpair
      cases hpair
      rw [hf]
      rfl
    | cons frame rest =>
      obtain ⟨hanswer, hframes⟩ := finishIteration_of_cons s frame rest hf
      rw [hpair] at hanswer hframes
      simp only at hanswer hframes
      rw [hanswer, hframes, Request.onFrames]
      split <;> rfl
  | clear =>
    cases h
    exact ⟨by rw [frames_clear]; rfl, rfl⟩

theorem isSome_handle (s : SequenceStack α) (request : Request α) :
    (s.handle request).isSome = request.fits s.capacity s.frames := by
  cases request with
  | push frame =>
    rw [handle, Option.isSome_map, Bool.eq_iff_iff, push_isSome_iff, Request.fits, length_frames,
      decide_eq_true_eq]
  | finishIteration | clear => rfl

theorem handleAll_of_fits (h : fitsAll s.capacity requests s.frames = true) :
    ∃ u, s.handleAll requests = some ((onFramesAll requests s.frames).1, u) ∧
      u.frames = (onFramesAll requests s.frames).2 ∧ u.capacity = s.capacity := by
  induction requests generalizing s with
  | nil => exact ⟨s, rfl, rfl, rfl⟩
  | cons request rest ih =>
    rw [fitsAll, Bool.and_eq_true, ← isSome_handle] at h
    obtain ⟨⟨answer, t⟩, ht⟩ := Option.isSome_iff_exists.1 h.1
    obtain ⟨hstep, hcapacity⟩ := onFrames_of_handle ht
    rw [hstep, ← hcapacity] at h
    obtain ⟨u, hu, hframes, hsame⟩ := ih h.2
    refine ⟨u, ?_, ?_, hsame.trans hcapacity⟩
    · simp [handleAll, ht, hu, onFramesAll, hstep]
    · simp [onFramesAll, hstep, hframes]

theorem fits_of_handleAll (h : s.handleAll requests = some (answers, u)) :
    fitsAll s.capacity requests s.frames = true := by
  induction requests generalizing s answers u with
  | nil => rfl
  | cons request rest ih =>
    obtain ⟨⟨answer, t⟩, ht, hrest⟩ := Option.bind_eq_some_iff.1 h
    obtain ⟨⟨later, v⟩, hv, -⟩ := Option.bind_eq_some_iff.1 hrest
    obtain ⟨hstep, hcapacity⟩ := onFrames_of_handle ht
    rw [fitsAll, ← isSome_handle, ht, hstep, ← hcapacity]
    exact ih hv

theorem Alike.handleAll (hst : s.Alike t) (h : s.handleAll requests = some (answers, u)) :
    ∃ v, t.handleAll requests = some (answers, v) ∧ u.Alike v := by
  have hfits := fits_of_handleAll h
  obtain ⟨u', hu, hframes, hcapacity⟩ := handleAll_of_fits hfits
  rw [← hst.capacity, ← hst.frames] at hfits
  obtain ⟨v, hv, hframes', hcapacity'⟩ := handleAll_of_fits hfits
  rw [h] at hu
  cases hu
  rw [hst.frames] at hv hframes'
  exact ⟨v, hv, ⟨by rw [hcapacity', hcapacity, hst.capacity], by rw [hframes', hframes]⟩⟩

end Runs

/-- A run from `s` on that leaves more than `floor` frames open all along, with the answers to the
requests that finished an iteration while only one more was open. -/
inductive Above (floor : Nat) (s : SequenceStack α) :
    List (Request α) → List (Option α) → SequenceStack α → Prop where
  | refl : Above floor s [] [] s
  | step {requests : List (Request α)} {answers : List (Option α)} {t u : SequenceStack α}
      {request : Request α} {answer : Option α} (h : Above floor s requests answers t)
      (hrequest : t.handle request = some (answer, u)) (hopen : floor < u.depth) :
      Above floor s (requests ++ [request])
        (if request.finishes && t.depth == floor + 1 then answers ++ [answer] else answers) u

/-- A frame that has answered `answers` since it was pushed on `s`: each answer led back to the body
and used up one iteration, and the frames below are as they were. -/
def Leads (s : SequenceStack α) (count : Int) (body : α) (answers : List (Option α))
    (u : SequenceStack α) : Prop :=
  answers = List.replicate answers.length (some body) ∧ answers.length < count ∧
    ∃ above, u.frames = above ++ ⟨count - answers.length, body⟩ :: s.frames

section Iterations

variable {s t u : SequenceStack α} {count : Int} {body : α} {requests : List (Request α)}
  {answers : List (Option α)} {answer : Option α}

theorem Leads.frames_eq (h : s.Leads count body answers u) (htop : u.depth = s.depth + 1) :
    u.frames = ⟨count - answers.length, body⟩ :: s.frames := by
  obtain ⟨-, -, above, hframes⟩ := h
  have hlength := congrArg List.length hframes
  rw [u.length_frames, List.length_append, List.length_cons, s.length_frames] at hlength
  rw [hframes, List.eq_nil_of_length_eq_zero (show above.length = 0 by omega), List.nil_append]

theorem Leads.finishIteration (h : s.Leads count body answers u) (htop : u.depth = s.depth + 1) :
    u.finishIteration.1 = (if answers.length + 1 < count then some body else none) ∧
      u.finishIteration.2.frames =
        if answers.length + 1 < count then ⟨count - (answers.length + 1), body⟩ :: s.frames
        else s.frames := by
  obtain ⟨hanswer, hframes⟩ := u.finishIteration_of_cons _ _ (h.frames_eq htop)
  have hmore : (1 < count - answers.length) ↔ (answers.length + 1 : Int) < count := by omega
  simp only [hmore, show count - answers.length - 1 = count - (answers.length + 1) by omega]
    at hanswer hframes
  exact ⟨hanswer, hframes⟩

theorem Leads.finishAbove (h : s.Leads count body answers t) (habove : t.depth ≠ s.depth + 1)
    (hrequest : t.handle .finishIteration = some (answer, u)) : s.Leads count body answers u := by
  obtain ⟨hanswers, hlt, above, hframes⟩ := h
  have hstep := congrArg Prod.snd (onFrames_of_handle hrequest).1
  refine ⟨hanswers, hlt, ?_⟩
  cases above with
  | nil =>
    refine absurd ?_ habove
    rw [← t.length_frames, hframes, List.nil_append, List.length_cons, s.length_frames]
  | cons first above =>
    rw [hframes, List.cons_append, Request.onFrames] at hstep
    split at hstep
    · exact ⟨⟨first.remaining - 1, first.body⟩ :: above, hstep.symm⟩
    · exact ⟨above, hstep.symm⟩

/-- While its iterations last, the frame leads back to its body. -/
theorem Leads.finishTop (h : s.Leads count body answers t) (htop : t.depth = s.depth + 1)
    (hrequest : t.handle .finishIteration = some (answer, u)) (hopen : s.depth < u.depth) :
    s.Leads count body (answers ++ [answer]) u := by
  obtain ⟨hanswer, hframes⟩ := h.finishIteration htop
  have hpair : t.finishIteration = (answer, u) := Option.some.inj hrequest
  rw [hpair] at hanswer hframes
  simp only at hanswer hframes
  by_cases hmore : (answers.length + 1 : Int) < count
  · rw [if_pos hmore] at hanswer hframes
    refine ⟨?_, by simpa using hmore, [], ?_⟩
    · rw [hanswer, List.length_append, List.length_singleton, List.replicate_succ', ← h.1]
    · rw [hframes, List.length_append, List.length_singleton, List.nil_append]
      rfl
  · rw [if_neg hmore] at hframes
    rw [← u.length_frames, hframes, s.length_frames] at hopen
    exact absurd hopen (Nat.lt_irrefl _)

theorem Above.leads (hpush : s.push ⟨count, body⟩ = some t) (hcount : 1 ≤ count)
    (h : Above s.depth t requests answers u) : s.Leads count body answers u := by
  induction h with
  | refl => exact ⟨rfl, by simp; omega, [], by simpa using frames_push hpush⟩
  | @step requests answers t u request answer _ hrequest hopen ih =>
    cases request with
    | push frame =>
      obtain ⟨hanswers, hlt, above, hframes⟩ := ih
      have hstep : frame :: t.frames = u.frames :=
        congrArg Prod.snd (onFrames_of_handle hrequest).1
      exact ⟨hanswers, hlt, frame :: above, by rw [← hstep, hframes]; rfl⟩
    | finishIteration =>
      by_cases htop : t.depth = s.depth + 1
      · simpa [Request.finishes, htop] using ih.finishTop htop hrequest hopen
      · simpa [Request.finishes, htop] using ih.finishAbove htop hrequest
    | clear =>
      cases hrequest
      exact absurd hopen (Nat.not_lt_zero _)

/-- The stack of open sequences answers as a list of frames, whatever run it has behind it, as long
as no frame is pushed on a full one. What is left in its slots makes no difference. A frame pushed
with a count of 1 or more leads back to its body each time an iteration is finished while it is on
top, but for the time that completes the count. That time it is dropped, and the frames below it are
as they were. -/
theorem answers_as_frames (capacity : Nat) (fill : α) :
    (∀ requests, fitsAll capacity requests [] = true → ∃ s,
      (withCapacity capacity fill).handleAll requests = some ((onFramesAll requests []).1, s) ∧
        s.Shows (onFramesAll requests []).2) ∧
    (∀ s t : SequenceStack α, s.Alike t → ∀ requests answers u,
      s.handleAll requests = some (answers, u) →
        ∃ v, t.handleAll requests = some (answers, v) ∧ v.Shows u.frames) ∧
    ∀ (s t : SequenceStack α) (count : Int) (body : α), s.push ⟨count, body⟩ = some t → 1 ≤ count →
      ∀ requests answers u, Above s.depth t requests answers u →
        answers = List.replicate answers.length (some body) ∧ answers.length < count ∧
          (u.depth = s.depth + 1 →
            u.finishIteration.1 = (if answers.length + 1 < count then some body else none) ∧
              u.finishIteration.2.frames =
                if answers.length + 1 < count then ⟨count - (answers.length + 1), body⟩ :: s.frames
                else s.frames) := by
  refine ⟨fun requests hfits => ?_, fun s t hst requests answers u h => ?_,
    fun s t count body hpush hcount requests answers u h => ?_⟩
  · have hfresh : fitsAll (withCapacity capacity fill).capacity requests
        (withCapacity capacity fill).frames = true := by
      rw [frames_withCapacity, show (withCapacity capacity fill).capacity = capacity from
        Array.size_replicate]
      exact hfits
    obtain ⟨s, hs, hframes, -⟩ := handleAll_of_fits hfresh
    rw [frames_withCapacity] at hs hframes
    exact ⟨s, hs, hframes ▸ s.shows_frames⟩
  · obtain ⟨v, hv, halike⟩ := hst.handleAll h
    exact ⟨v, hv, halike.frames ▸ v.shows_frames⟩
  · have hleads := h.leads hpush hcount
    exact ⟨hleads.1, hleads.2.1, hleads.finishIteration⟩

/-- Two iterations, with a sequence of one iteration inside the first of them. What they leave in
the slots is not seen in the next run. -/
theorem answers_as_frames_nested :
    (∃ s, (withCapacity 2 (0 : Int)).handleAll [.push ⟨2, 10⟩, .push ⟨1, 20⟩, .finishIteration,
        .finishIteration, .finishIteration, .finishIteration] =
          some ([none, none, none, some 10, none, none], s) ∧ s.Shows []) ∧
      ∃ t u v, (withCapacity 2 (0 : Int)).push ⟨2, 10⟩ = some t ∧
        Above 0 t [.push ⟨1, 20⟩, .finishIteration, .finishIteration] [some 10] u ∧
        u.finishIteration.1 = none ∧ u.finishIteration.2.frames = [] ∧
        u.finishIteration.2.handleAll [.push ⟨3, 30⟩] = some ([none], v) ∧ v.Shows [⟨3, 30⟩] := by
  obtain ⟨hruns, halike, hleads⟩ := answers_as_frames 2 (0 : Int)
  let t : SequenceStack Int := ⟨#[⟨2, 10⟩, ⟨0, 0⟩], 1, by decide⟩
  let u : SequenceStack Int := ⟨#[⟨1, 10⟩, ⟨0, 20⟩], 1, by decide⟩
  have hpush : Above 0 t [.push ⟨1, 20⟩] [] ⟨#[⟨2, 10⟩, ⟨1, 20⟩], 2, by decide⟩ :=
    .step .refl rfl (by decide)
  have hinner : Above 0 t [.push ⟨1, 20⟩, .finishIteration] []
      ⟨#[⟨2, 10⟩, ⟨0, 20⟩], 1, by decide⟩ := .step hpush rfl (by decide)
  have habove : Above 0 t [.push ⟨1, 20⟩, .finishIteration, .finishIteration] [some 10] u :=
    .step hinner rfl (by decide)
  obtain ⟨hanswer, hframes⟩ := (hleads (withCapacity 2 0) t 2 10 rfl (by decide) _ _ u habove).2.2
    rfl
  obtain ⟨v, hv, hshows⟩ := halike (withCapacity 2 0) u.finishIteration.2 ⟨rfl, hframes.symm⟩
    [.push ⟨3, 30⟩] [none] ⟨#[⟨3, 30⟩, ⟨0, 0⟩], 1, by decide⟩ rfl
  exact ⟨hruns _ (by decide), t, u, v, rfl, habove, hanswer, hframes, hv, hshows⟩

end Iterations

end SequenceStack

end FragmentPipe
