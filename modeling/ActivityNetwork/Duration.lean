import ActivityNetwork.Identity

/-!
# Durations

An activity lasts a number of abstract ticks.  Whoever runs a network decides what a tick is;
here the number is only carried along, compared and added.  Addition stops at the largest
64-bit number instead of wrapping round.
-/

namespace ActivityNetwork

/-- A length of time in ticks. -/
structure Duration where
  ticks : UInt64
  deriving DecidableEq, Repr

namespace Duration

/-- No time at all. -/
def zero : Duration :=
  ⟨0⟩

instance : Inhabited Duration :=
  ⟨zero⟩

instance : Ord Duration :=
  ⟨fun a b => compare a.ticks b.ticks⟩

/-- The duration of `n` ticks, if `n` fits in 64 bits. -/
def ofNat? (n : Nat) : Option Duration :=
  if n ≤ maxWord then some ⟨UInt64.ofNat n⟩ else none

/-- The number of ticks. -/
def toNat (d : Duration) : Nat :=
  d.ticks.toNat

def isZero (d : Duration) : Bool :=
  d == zero

/-- The sum of two durations, or the largest duration where the sum is larger still. -/
def add (a b : Duration) : Duration :=
  ⟨UInt64.ofNat (min (a.toNat + b.toNat) maxWord)⟩

instance : Add Duration :=
  ⟨add⟩

/-- The text `5t`. -/
def text (d : Duration) : String :=
  s!"{d.toNat}t"

theorem toNat_le (d : Duration) : d.toNat ≤ maxWord := by
  have h := d.ticks.toNat_lt
  simp only [toNat, maxWord]
  omega

theorem ofNat?_toNat (d : Duration) : ofNat? d.toNat = some d := by
  rw [ofNat?, if_pos d.toNat_le]
  simp [toNat]

theorem toNat_of_ofNat? {n : Nat} {d : Duration} (h : ofNat? n = some d) : d.toNat = n := by
  rw [ofNat?] at h
  split at h
  · rename_i hn
    cases h
    simp only [maxWord] at hn
    simp only [toNat, UInt64.toNat_ofNat']
    omega
  · cases h

theorem toNat_add (a b : Duration) : (a + b).toNat = min (a.toNat + b.toNat) maxWord := by
  change (UInt64.ofNat (min (a.toNat + b.toNat) maxWord)).toNat = _
  simp only [maxWord, UInt64.toNat_ofNat']
  omega

end Duration

end ActivityNetwork
