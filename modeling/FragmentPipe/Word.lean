set_option autoImplicit false

namespace FragmentPipe

def distance (n : Int) : Nat := (n % 0x10000000000000000).toNat

theorem distance_of_nonneg {n : Int} (h : 0 ≤ n) (hn : n < 0x10000000000000000) :
    (distance n : Int) = n := by
  unfold distance
  omega

namespace Long

def high (value : Int64) : Int32 := Int32.ofInt (value.toInt / 0x100000000)

def low (value : Int64) : Int32 := Int32.ofInt value.toInt

/-- The low word counts without its sign. -/
def join (high low : Int32) : Int64 :=
  Int64.ofInt (high.toInt * 0x100000000 + low.toInt % 0x100000000)

theorem join_high_low (value : Int64) : join (high value) (low value) = value := by
  have hlow := Int64.le_toInt value
  have hhigh := Int64.toInt_lt value
  have h32 : Int32.size = 0x100000000 := rfl
  have h64 : Int64.size = 0x10000000000000000 := rfl
  apply Int64.toInt.inj
  unfold join high low
  rw [Int64.toInt_ofInt, Int32.toInt_ofInt, Int32.toInt_ofInt]
  simp only [Int.bmod_def, h32, h64]
  omega

end Long

end FragmentPipe
