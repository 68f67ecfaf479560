import Mathlib.Order.Basic

/-!
Ints and durations as Go counts them: an instant is a number of nanoseconds, a duration a signed
machine word. The zero `time.Time` is no instant, so an instant that may be unset is an option.
-/

namespace VaultProofs.GoTimes

abbrev Span := Int64

def second : Int := 1000000000

/-- `Truncate(time.Second)`. -/
def truncate (t : Int) : Int :=
  t - t % second

def add (t : Int) (d : Span) : Int :=
  t + d.toInt

/-- `Sub`, which stops at the greatest and the least duration. -/
def sub (t u : Int) : Span :=
  Int64.ofIntClamp (t - u)

theorem lt_truncate_add (t : Int) : t < truncate t + second := by
  have hmod := Int.emod_lt_of_pos t (by decide : 0 < second)
  rw [truncate]
  omega

theorem span_zero : (0 : Span).toInt = 0 := rfl

theorem span_pos {d : Span} : 0 < d ↔ 0 < d.toInt := by
  rw [Int64.lt_iff_toInt_lt, span_zero]

theorem span_nonpos {d : Span} : d ≤ 0 ↔ d.toInt ≤ 0 := by
  rw [Int64.le_iff_toInt_le, span_zero]

theorem sub_le {t u : Int} (h : 0 < sub t u) : (sub t u).toInt ≤ t - u := by
  rw [sub, Int64.ofIntClamp] at h ⊢
  by_cases hmin : Int64.minValue.toInt ≤ t - u
  · rw [dif_pos hmin]
    by_cases hmax : t - u ≤ Int64.maxValue.toInt
    · rw [dif_pos hmax]
      exact Int.le_of_eq Int64.toInt_ofIntLE
    · rw [dif_neg hmax]
      omega
  · rw [dif_neg hmin] at h
    exact absurd h (by decide)

theorem diff_neg_iff {a b : Span} (ha : 0 < a) (hb : 0 < b) : a - b < 0 ↔ a < b := by
  have hamax := a.toInt_lt
  have hbmax := b.toInt_lt
  rw [span_pos] at ha hb
  rw [Int64.lt_iff_toInt_lt, Int64.lt_iff_toInt_lt, Int64.toInt_sub, span_zero,
    Int.bmod_eq_of_le (by omega) (by omega)]
  omega

end VaultProofs.GoTimes
