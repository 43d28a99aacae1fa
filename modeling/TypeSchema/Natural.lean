/-!
# Decimal numbers of 64 bits

A run of digits denotes a natural number; leading zeros do not matter. `Natural.word?` reads the
run exactly or refuses it: `word?_eq_some_iff` says that nothing wraps and nothing is cut off.
-/

namespace TypeSchema.Natural

def value (digits : List Char) : Nat := Nat.ofDigitChars 10 digits 0

/-- The number as a word of 64 bits, if it is written in digits only and fits. -/
def word? (digits : List Char) : Option UInt64 :=
  if digits ≠ [] ∧ digits.all Char.isDigit ∧ value digits < UInt64.size then
    some (.ofNat (value digits))
  else none

theorem word?_eq_some_iff {digits : List Char} {n : UInt64} :
    word? digits = some n ↔ digits ≠ [] ∧ digits.all Char.isDigit ∧ value digits = n.toNat := by
  unfold word?
  constructor
  · intro h
    split at h
    next hw =>
      obtain ⟨hne, hd, hlt⟩ := hw
      cases h
      exact ⟨hne, hd, (UInt64.toNat_ofNat_of_lt' hlt).symm⟩
    next => cases h
  · rintro ⟨hne, hd, hv⟩
    rw [if_pos ⟨hne, hd, hv ▸ n.toNat_lt_size⟩, hv, UInt64.ofNat_toNat]

theorem word?_toDigits (n : UInt64) : word? (Nat.toDigits 10 n.toNat) = some n := by
  refine word?_eq_some_iff.2 ⟨?_, ?_, Nat.ofDigitChars_toDigits (by decide) (by decide)⟩
  · exact Nat.toDigits_ne_nil
  · exact List.all_eq_true.2 fun c hc => Nat.isDigit_of_mem_toDigits (by decide) (by decide) hc

end TypeSchema.Natural
