set_option autoImplicit false

namespace FragmentPipe

structure Mark where
  words : Nat
  bytes : Nat
deriving DecidableEq, Repr

namespace Mark

def origin : Mark := ⟨0, 0⟩

def ofWords (words : Nat) : Mark := ⟨words, 0⟩

def ofBytes (bytes : Nat) : Mark := ⟨0, bytes⟩

instance : Add Mark := ⟨fun a b => ⟨a.words + b.words, a.bytes + b.bytes⟩⟩

instance : LE Mark := ⟨fun a b => a.words ≤ b.words ∧ a.bytes ≤ b.bytes⟩

instance (a b : Mark) : Decidable (a ≤ b) :=
  inferInstanceAs (Decidable (a.words ≤ b.words ∧ a.bytes ≤ b.bytes))

@[simp] theorem words_add (a b : Mark) : (a + b).words = a.words + b.words := rfl

@[simp] theorem bytes_add (a b : Mark) : (a + b).bytes = a.bytes + b.bytes := rfl

theorem le_iff (a b : Mark) : a ≤ b ↔ a.words ≤ b.words ∧ a.bytes ≤ b.bytes := Iff.rfl

theorem le_refl (a : Mark) : a ≤ a := ⟨Nat.le_refl _, Nat.le_refl _⟩

theorem le_trans {a b c : Mark} (hab : a ≤ b) (hbc : b ≤ c) : a ≤ c :=
  ⟨Nat.le_trans hab.1 hbc.1, Nat.le_trans hab.2 hbc.2⟩

theorem le_add (a b : Mark) : a ≤ a + b := ⟨Nat.le_add_right _ _, Nat.le_add_right _ _⟩

end Mark

end FragmentPipe
