import Mathlib.Data.Int.Notation
import VaultProofs.GoStrings

/-!
Decimal numbers in Go strings, and the first cut of a string at a byte.
-/

namespace VaultProofs.GoDecimals

open GoStrings

def decimal (n : Nat) : GoString :=
  (Nat.toDigits 10 n).map fun digit => UInt8.ofNat digit.toNat

def itoa (n : Int) : GoString :=
  if n < 0 then 45 :: decimal n.natAbs else decimal n.natAbs

def digitsValue : Nat → GoString → Option Nat
  | value, [] => some value
  | value, byte :: rest =>
    if 48 ≤ byte ∧ byte ≤ 57 then digitsValue (10 * value + (byte.toNat - 48)) rest else none

def unsigned (s : GoString) : Option Nat :=
  if s.isEmpty then none else digitsValue 0 s

/-- `strconv.Atoi`, for integers of any size. -/
def atoi : GoString → Option Int
  | 45 :: digits => (unsigned digits).map Int.negOfNat
  | 43 :: digits => (unsigned digits).map Int.ofNat
  | digits => (unsigned digits).map Int.ofNat

/-- `strings.SplitN(s, sep, 2)` for a separator of one byte, if it gives two parts. -/
def cutByte (sep : UInt8) : GoString → Option (GoString × GoString)
  | [] => none
  | byte :: rest =>
    if byte = sep then some ([], rest)
    else (cutByte sep rest).map fun parts => (byte :: parts.1, parts.2)

theorem cutByte_append {sep : UInt8} {s t : GoString} (h : sep ∉ s) :
    cutByte sep (s ++ sep :: t) = some (s, t) := by
  induction s with
  | nil => simp [cutByte]
  | cons byte s ih =>
    rw [List.mem_cons, not_or] at h
    rw [List.cons_append, cutByte, if_neg (Ne.symm h.1), ih h.2]
    rfl

def digitByte (d : Nat) : UInt8 := UInt8.ofNat (Nat.digitChar d).toNat

theorem digitByte_spec {d : Nat} (h : d < 10) :
    (48 ≤ digitByte d ∧ digitByte d ≤ 57) ∧ (digitByte d).toNat - 48 = d := by
  have hall : ∀ d : Fin 10, (48 ≤ digitByte d ∧ digitByte d ≤ 57) ∧ (digitByte d).toNat - 48 = d := by
    decide
  exact hall ⟨d, h⟩

theorem decimal_of_lt {n : Nat} (h : n < 10) : decimal n = [digitByte n] := by
  rw [decimal, Nat.toDigits_of_lt_base h]
  rfl

theorem decimal_of_le {n : Nat} (h : 10 ≤ n) :
    decimal n = decimal (n / 10) ++ [digitByte (n % 10)] := by
  rw [decimal, Nat.toDigits_of_base_le (by omega) h, List.map_append]
  rfl

theorem digitsValue_append (s t : GoString) (value : Nat) :
    digitsValue value (s ++ t) = (digitsValue value s).bind fun v => digitsValue v t := by
  induction s generalizing value with
  | nil => rfl
  | cons byte s ih =>
    rw [List.cons_append, digitsValue, digitsValue]
    split
    · exact ih _
    · rfl

theorem decimal_spec (n : Nat) :
    digitsValue 0 (decimal n) = some n ∧ decimal n ≠ [] ∧
      ∀ byte ∈ decimal n, 48 ≤ byte ∧ byte ≤ 57 := by
  induction n using Nat.strongRecOn with
  | _ n ih =>
    rcases Nat.lt_or_ge n 10 with hlt | hge
    · obtain ⟨hrange, hvalue⟩ := digitByte_spec hlt
      rw [decimal_of_lt hlt]
      refine ⟨?_, by simp, by simpa using hrange⟩
      rw [digitsValue, if_pos hrange, hvalue, digitsValue]
      simp
    obtain ⟨hvalue, hne, hbytes⟩ := ih (n / 10) (by omega)
    obtain ⟨hrange, hdigit⟩ := digitByte_spec (Nat.mod_lt n (by omega : 0 < 10))
    rw [decimal_of_le hge]
    refine ⟨?_, by simp, ?_⟩
    · rw [digitsValue_append, hvalue, Option.bind_some, digitsValue, if_pos hrange, hdigit,
        digitsValue]
      congr 1
      omega
    intro byte hbyte
    rcases List.mem_append.mp hbyte with hmem | hmem
    · exact hbytes byte hmem
    · rw [List.mem_singleton.mp hmem]
      exact hrange

theorem atoi_itoa {n : Int} (h : 0 ≤ n) : atoi (itoa n) = some n := by
  obtain ⟨hvalue, hne, hbytes⟩ := decimal_spec n.natAbs
  rw [itoa, if_neg (by omega)]
  obtain ⟨byte, rest, heq⟩ := List.exists_cons_of_ne_nil hne
  have hunsigned : unsigned (byte :: rest) = some n.natAbs := by
    rw [unsigned, if_neg (by simp), ← heq, hvalue]
  have hbyte := hbytes byte (by rw [heq]; exact (.head _))
  have hminus : byte ≠ 45 := fun h45 => absurd hbyte (by rw [h45]; decide)
  have hplus : byte ≠ 43 := fun h43 => absurd hbyte (by rw [h43]; decide)
  rw [heq, atoi, hunsigned, Option.map_some, Int.ofNat_eq_natCast, Int.natAbs_of_nonneg h]
  · intro digits hcons
    cases hcons
    exact hminus rfl
  · intro digits hcons
    cases hcons
    exact hplus rfl

theorem not_mem_itoa {n : Int} (h : 0 ≤ n) {byte : UInt8} (hbyte : ¬ (48 ≤ byte ∧ byte ≤ 57)) :
    byte ∉ itoa n := by
  rw [itoa, if_neg (by omega)]
  exact fun hmem => hbyte ((decimal_spec n.natAbs).2.2 byte hmem)

end VaultProofs.GoDecimals
