set_option autoImplicit false

/-!
# Circular channels

A channel is a nonempty row of cells addressed by absolute positions that only ever grow: a position
is folded onto its cell by its residue modulo the capacity. So two positions share a cell exactly
when they are congruent, and positions less than one capacity apart never do.
-/
namespace FragmentPipe

structure Channel (α : Type) where
  cells : Array α
  nonempty : 0 < cells.size

namespace Channel

variable {α : Type}

def blank (bits : Nat) (fill : α) : Channel α :=
  ⟨Array.replicate (1 <<< bits) fill, by
    rw [Array.size_replicate, Nat.one_shiftLeft]
    exact Nat.two_pow_pos bits⟩

def capacity (c : Channel α) : Nat := c.cells.size

def slot (c : Channel α) (position : Nat) : Nat := position % c.cells.size

theorem slot_lt (c : Channel α) (position : Nat) : c.slot position < c.cells.size :=
  Nat.mod_lt position c.nonempty

def get (c : Channel α) (position : Nat) : α :=
  have := c.slot_lt position
  c.cells[c.slot position]

def set (c : Channel α) (position : Nat) (value : α) : Channel α :=
  ⟨c.cells.set (c.slot position) value (c.slot_lt position), by simpa using c.nonempty⟩

def write (c : Channel α) (position : Nat) : List α → Channel α
  | [] => c
  | value :: rest => (c.set position value).write (position + 1) rest

def read (c : Channel α) (position count : Nat) : List α :=
  (List.range count).map fun i => c.get (position + i)

def copyFrom (c source : Channel α) (start target : Nat) : Nat → Channel α
  | 0 => c
  | count + 1 =>
    (c.copyFrom source start target count).set (target + count) (source.get (start + count))

/-- Copy `count` cells within one channel, one after the other, so that a later cell is read after
the earlier ones have been stored. -/
def copyWithin (c : Channel α) (start target : Nat) : Nat → Channel α
  | 0 => c
  | count + 1 =>
    let copied := c.copyWithin start target count
    copied.set (target + count) (copied.get (start + count))

def erase (c : Channel α) (fill : α) : Channel α :=
  ⟨Array.replicate c.cells.size fill, by simpa using c.nonempty⟩

@[simp] theorem capacity_set (c : Channel α) (position : Nat) (value : α) :
    (c.set position value).capacity = c.capacity := by
  simp [capacity, set]

@[simp] theorem slot_set (c : Channel α) (position other : Nat) (value : α) :
    (c.set position value).slot other = c.slot other := by
  simp [slot, set]

theorem slot_congr {c d : Channel α} (h : c.capacity = d.capacity) (position : Nat) :
    c.slot position = d.slot position :=
  congrArg (position % ·) h

theorem get_set_of_slot_eq (c : Channel α) {position other : Nat} (value : α)
    (h : c.slot position = c.slot other) : (c.set position value).get other = value := by
  unfold get
  simp [set, slot] at h ⊢
  simp [h]

theorem get_set_of_slot_ne (c : Channel α) {position other : Nat} (value : α)
    (h : c.slot position ≠ c.slot other) : (c.set position value).get other = c.get other := by
  unfold get
  simp [set, slot] at h ⊢
  rw [Array.getElem_set_ne _ _ h]

theorem get_set_self (c : Channel α) (position : Nat) (value : α) :
    (c.set position value).get position = value :=
  c.get_set_of_slot_eq value rfl

/-- Positions less than one capacity apart have cells of their own. -/
theorem slot_ne_of_lt (c : Channel α) {p q : Nat} (hpq : p < q) (hq : q < p + c.capacity) :
    c.slot p ≠ c.slot q := by
  intro h
  have hmod : (q - p) % c.cells.size = 0 := Nat.sub_mod_eq_zero_of_mod_eq h.symm
  have hsmall : (q - p) % c.cells.size = q - p := Nat.mod_eq_of_lt (by unfold capacity at hq; omega)
  omega

@[simp] theorem capacity_write (c : Channel α) (position : Nat) (values : List α) :
    (c.write position values).capacity = c.capacity := by
  induction values generalizing c position with
  | nil => rfl
  | cons value rest ih => simp [write, ih]

@[simp] theorem capacity_copyFrom (c source : Channel α) (start target count : Nat) :
    (c.copyFrom source start target count).capacity = c.capacity := by
  induction count with
  | zero => rfl
  | succ count ih => simp [copyFrom, ih]

@[simp] theorem capacity_copyWithin (c : Channel α) (start target count : Nat) :
    (c.copyWithin start target count).capacity = c.capacity := by
  induction count with
  | zero => rfl
  | succ count ih => simp [copyWithin, ih]

@[simp] theorem capacity_erase (c : Channel α) (fill : α) :
    (c.erase fill).capacity = c.capacity := by
  simp [capacity, erase]

@[simp] theorem length_read (c : Channel α) (position count : Nat) :
    (c.read position count).length = count := by
  simp [read]

theorem get_write_of_slot_ne (c : Channel α) (position other : Nat) (values : List α)
    (h : ∀ i, i < values.length → c.slot (position + i) ≠ c.slot other) :
    (c.write position values).get other = c.get other := by
  induction values generalizing c position with
  | nil => rfl
  | cons value rest ih =>
    have hhead : c.slot position ≠ c.slot other := by
      simpa using h 0 (by simp)
    unfold write
    rw [ih (c.set position value) (position + 1), c.get_set_of_slot_ne value hhead]
    intro i hi
    have := h (i + 1) (by simpa using hi)
    simpa [Nat.add_assoc, Nat.add_comm 1 i] using this

/-- Values written within one capacity are read back in order. -/
theorem read_write (c : Channel α) (position : Nat) (values : List α)
    (h : values.length ≤ c.capacity) :
    (c.write position values).read position values.length = values := by
  induction values generalizing c position with
  | nil => rfl
  | cons value rest ih =>
    have hcap : rest.length ≤ (c.set position value).capacity := by
      simp at h ⊢
      omega
    have htail := ih (c.set position value) (position + 1) hcap
    have hhead : ((c.set position value).write (position + 1) rest).get position = value := by
      rw [get_write_of_slot_ne, c.get_set_self]
      intro i hi
      simp only [List.length_cons] at h
      rw [slot_set, slot_set]
      exact (c.slot_ne_of_lt (by omega) (by omega)).symm
    unfold read at htail ⊢
    rw [List.length_cons, List.range_succ_eq_map]
    simp only [List.map_cons, List.map_map, write, Nat.add_zero, hhead]
    congr 1
    refine Eq.trans ?_ htail
    apply List.map_congr_left
    intro i _
    simp [Nat.add_assoc, Nat.add_comm 1 i]

section Windows

variable (c : Channel α)

theorem slot_ne_of_ne (low : Nat) {p q : Nat} (hp : low ≤ p) (hp' : p < low + c.capacity)
    (hq : low ≤ q) (hq' : q < low + c.capacity) (hne : p ≠ q) : c.slot p ≠ c.slot q := by
  rcases Nat.lt_or_gt_of_ne hne with hlt | hgt
  · exact c.slot_ne_of_lt hlt (by omega)
  · exact (c.slot_ne_of_lt hgt (by omega)).symm

theorem get_set_of_ne (low : Nat) {p q : Nat} (value : α) (hp : low ≤ p)
    (hp' : p < low + c.capacity) (hq : low ≤ q)
    (hq' : q < low + c.capacity) (hne : p ≠ q) : (c.set p value).get q = c.get q :=
  c.get_set_of_slot_ne value (c.slot_ne_of_ne low hp hp' hq hq' hne)

theorem get_write_outside (low : Nat) {p q : Nat} (values : List α) (hp : low ≤ p)
    (hp' : p + values.length ≤ low + c.capacity) (hq : low ≤ q) (hq' : q < low + c.capacity)
    (hout : q < p ∨ p + values.length ≤ q) : (c.write p values).get q = c.get q := by
  refine c.get_write_of_slot_ne p q values fun i hi => ?_
  exact c.slot_ne_of_ne low (by omega) (by omega) hq hq' (by omega)

theorem get_write_inside (p : Nat) (values : List α) (h : values.length ≤ c.capacity) {i : Nat}
    (hi : i < values.length) : (c.write p values).get (p + i) = values[i] := by
  have hread : ((c.write p values).read p values.length)[i]? =
      some ((c.write p values).get (p + i)) := by simp [read, hi]
  rw [c.read_write p values h, List.getElem?_eq_getElem hi] at hread
  exact (Option.some.inj hread).symm

theorem get_copyFrom_outside (low : Nat) {p q : Nat} (source : Channel α) (start : Nat)
    {count : Nat} (hp : low ≤ p) (hp' : p + count ≤ low + c.capacity) (hq : low ≤ q)
    (hq' : q < low + c.capacity)
    (hout : q < p ∨ p + count ≤ q) : (c.copyFrom source start p count).get q = c.get q := by
  induction count with
  | zero => rfl
  | succ count ih =>
    have hcapacity := c.capacity_copyFrom source start p count
    unfold copyFrom
    rw [get_set_of_ne _ low _ (by omega) (by omega) hq (by omega) (by omega)]
    exact ih (by omega) (by omega)

theorem get_copyFrom_inside (p : Nat) (source : Channel α) (start : Nat) {count : Nat}
    (h : count ≤ c.capacity) {i : Nat} (hi : i < count) :
    (c.copyFrom source start p count).get (p + i) = source.get (start + i) := by
  induction count with
  | zero => omega
  | succ count ih =>
    have hcapacity := c.capacity_copyFrom source start p count
    unfold copyFrom
    by_cases hlast : i = count
    · subst hlast
      exact get_set_self _ _ _
    · rw [get_set_of_ne _ p _ (by omega) (by omega) (by omega) (by omega) (by omega)]
      exact ih (by omega) (by omega)

theorem get_copyWithin_outside (low : Nat) {p q : Nat} (start : Nat) {count : Nat} (hp : low ≤ p)
    (hp' : p + count ≤ low + c.capacity) (hq : low ≤ q) (hq' : q < low + c.capacity)
    (hout : q < p ∨ p + count ≤ q) : (c.copyWithin start p count).get q = c.get q := by
  induction count with
  | zero => rfl
  | succ count ih =>
    have hcapacity := c.capacity_copyWithin start p count
    unfold copyWithin
    rw [get_set_of_ne _ low _ (by omega) (by omega) hq (by omega) (by omega)]
    exact ih (by omega) (by omega)

/-- What is copied behind the cells that it comes from is there as it was before. -/
theorem get_copyWithin_inside (low : Nat) {p start : Nat} {count : Nat} (hstart : low ≤ start)
    (hbehind : start + count ≤ p) (hp' : p + count ≤ low + c.capacity) {i : Nat} (hi : i < count) :
    (c.copyWithin start p count).get (p + i) = c.get (start + i) := by
  induction count with
  | zero => omega
  | succ count ih =>
    have hcapacity := c.capacity_copyWithin start p count
    unfold copyWithin
    by_cases hlast : i = count
    · subst hlast
      rw [get_set_self]
      exact c.get_copyWithin_outside low start (by omega) (by omega) (by omega) (by omega)
        (.inl (by omega))
    · rw [get_set_of_ne _ low _ (by omega) (by omega) (by omega) (by omega) (by omega)]
      exact ih (by omega) (by omega) (by omega)

end Windows

section Orders

variable (c : Channel α)

/-- Cells of different slots are set in either order. -/
theorem set_comm {p q : Nat} (value other : α) (h : c.slot p ≠ c.slot q) :
    (c.set p value).set q other = (c.set q other).set p value := by
  simp only [set, slot, Array.size_set]
  congr 1
  exact Array.set_comm value other h

theorem set_write_comm {p q : Nat} (value : α) {values : List α}
    (h : ∀ j, j < values.length → c.slot p ≠ c.slot (q + j)) :
    (c.set p value).write q values = (c.write q values).set p value := by
  induction values generalizing c q with
  | nil => rfl
  | cons first rest ih =>
    have hfirst : c.slot p ≠ c.slot q := h 0 (Nat.succ_pos _)
    unfold write
    rw [c.set_comm value first hfirst]
    refine ih (c.set q first) fun j hj => ?_
    rw [slot_set, slot_set, Nat.add_assoc, Nat.add_comm 1 j]
    exact h (j + 1) (Nat.succ_lt_succ hj)

theorem write_comm {p q : Nat} {values others : List α}
    (h : ∀ i j, i < values.length → j < others.length → c.slot (p + i) ≠ c.slot (q + j)) :
    (c.write p values).write q others = (c.write q others).write p values := by
  induction values generalizing c p with
  | nil => rfl
  | cons first rest ih =>
    have hfirst : (c.set p first).write q others = (c.write q others).set p first :=
      c.set_write_comm first fun j hj => h 0 j (Nat.succ_pos _) hj
    show ((c.set p first).write (p + 1) rest).write q others =
      ((c.write q others).set p first).write (p + 1) rest
    rw [← hfirst]
    refine ih (c.set p first) fun i j hi hj => ?_
    rw [slot_set, slot_set, Nat.add_assoc, Nat.add_comm 1 i]
    exact h (i + 1) j (Nat.succ_lt_succ hi) hj

end Orders

end Channel

end FragmentPipe
