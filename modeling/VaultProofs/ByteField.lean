import Mathlib.Algebra.Field.Defs
import Mathlib.Tactic.Ring

/-!
Arithmetic in GF(2^8) on bytes, as secret sharing computes it. Doubling is multiplication by x
modulo x^8 + x^4 + x^3 + x + 1; a product combines doublings of its first factor, from which the
laws of a field follow.
-/

namespace VaultProofs.ByteField

/-! The operations -/

def add (a b : UInt8) : UInt8 := a ^^^ b

/-- One round of the loop, for bit `i` of the second factor. -/
def multStep (a b r i : UInt8) : UInt8 :=
  (-(b >>> i &&& (1 : UInt8)) &&& a) ^^^ (-(r >>> 7) &&& (0x1B : UInt8)) ^^^ (r + r)

def mult (a b : UInt8) : UInt8 :=
  [7, 6, 5, 4, 3, 2, 1, 0].foldl (multStep a b) 0

def inverse (a : UInt8) : UInt8 :=
  let b := mult a a
  let c := mult a b
  let b := mult c c
  let b := mult b b
  let c := mult b c
  let b := mult b b
  let b := mult b b
  let b := mult b c
  let b := mult b b
  let b := mult a b
  mult b b

/-- No result stands for a panic. -/
def div (a b : UInt8) : Option UInt8 :=
  if b = 0 then none
  else
    let ret := mult a (inverse b)
    some (if a = 0 then 0 else ret)

/-! Doubling -/

def double (r : UInt8) : UInt8 :=
  (-(r >>> 7) &&& (0x1B : UInt8)) ^^^ (r + r)

def pick (b i a : UInt8) : UInt8 :=
  -(b >>> i &&& (1 : UInt8)) &&& a

theorem multStep_eq (a b r i : UInt8) : multStep a b r i = pick b i a ^^^ double r :=
  UInt8.xor_assoc _ _ _

theorem pick_eq (b i : UInt8) : (∀ a, pick b i a = 0) ∨ ∀ a, pick b i a = a := by
  have hbit : ∀ n : Fin 256, UInt8.ofFin n &&& 1 = 0 ∨ UInt8.ofFin n &&& 1 = 1 := by
    decide +kernel
  unfold pick
  rcases hbit (b >>> i).toFin with h | h
  · refine .inl fun a => ?_
    rw [show b >>> i &&& 1 = 0 from h]
    exact UInt8.zero_and
  · refine .inr fun a => ?_
    rw [show b >>> i &&& 1 = 1 from h]
    exact UInt8.neg_one_and

theorem double_eq_shifts (r : UInt8) :
    double r = (r <<< 1) ^^^ (r >>> 7) ^^^ (r >>> 7 <<< 1) ^^^ (r >>> 7 <<< 3) ^^^
      (r >>> 7 <<< 4) := by
  have hall : ∀ n : Fin 256, double (UInt8.ofFin n) = (UInt8.ofFin n <<< 1) ^^^
      (UInt8.ofFin n >>> 7) ^^^ (UInt8.ofFin n >>> 7 <<< 1) ^^^
      (UInt8.ofFin n >>> 7 <<< 3) ^^^ (UInt8.ofFin n >>> 7 <<< 4) := by
    decide +kernel
  exact hall r.toFin

theorem double_xor (r s : UInt8) : double (r ^^^ s) = double r ^^^ double s := by
  simp only [double_eq_shifts]
  apply UInt8.toBitVec_inj.mp
  simp [BitVec.shiftLeft_xor_distrib, BitVec.ushiftRight_xor_distrib]
  ac_rfl

theorem double_zero : double 0 = 0 := by decide

theorem map_mult {f : UInt8 → UInt8} (hzero : f 0 = 0)
    (hxor : ∀ a b, f (a ^^^ b) = f a ^^^ f b) (hdouble : ∀ a, f (double a) = double (f a))
    (a b : UInt8) : f (mult a b) = mult (f a) b := by
  have hpick : ∀ i, f (pick b i a) = pick b i (f a) := by
    intro i
    rcases pick_eq b i with h | h
    · rw [h, h, hzero]
    · rw [h, h]
  have hfold : ∀ (indices : List UInt8) (r : UInt8),
      f (indices.foldl (multStep a b) r) = indices.foldl (multStep (f a) b) (f r) := by
    intro indices
    induction indices with
    | nil => exact fun r => rfl
    | cons i indices ih =>
      intro r
      rw [List.foldl_cons, List.foldl_cons, ih, multStep_eq, multStep_eq, hxor, hpick, hdouble]
  rw [mult, hfold, hzero]
  rfl

theorem mult_xor_left (a a' b : UInt8) : mult (a ^^^ a') b = mult a b ^^^ mult a' b := by
  have hpick : ∀ i, pick b i (a ^^^ a') = pick b i a ^^^ pick b i a' := by
    intro i
    rcases pick_eq b i with h | h
    · rw [h, h, h, UInt8.xor_zero]
    · rw [h, h, h]
  have hfold : ∀ (indices : List UInt8) (r r' : UInt8),
      indices.foldl (multStep (a ^^^ a') b) (r ^^^ r') =
        indices.foldl (multStep a b) r ^^^ indices.foldl (multStep a' b) r' := by
    intro indices
    induction indices with
    | nil => exact fun r r' => rfl
    | cons i indices ih =>
      intro r r'
      have hstep : multStep (a ^^^ a') b (r ^^^ r') i =
          multStep a b r i ^^^ multStep a' b r' i := by
        simp only [multStep_eq, hpick, double_xor]
        ac_rfl
      rw [List.foldl_cons, List.foldl_cons, List.foldl_cons, hstep, ih]
  exact hfold _ 0 0

theorem zero_mult (b : UInt8) : mult 0 b = 0 := by
  have h := mult_xor_left 0 0 b
  rwa [UInt8.xor_self, UInt8.xor_self] at h

theorem one_mult (b : UInt8) : mult 1 b = b := by
  have hall : ∀ n : Fin 256, mult 1 (UInt8.ofFin n) = UInt8.ofFin n := by decide +kernel
  exact hall b.toFin

theorem double_mult (a b : UInt8) : double (mult a b) = mult (double a) b :=
  map_mult double_zero double_xor (fun _ => rfl) a b

theorem mult_right_comm (a b c : UInt8) : mult (mult a b) c = mult (mult a c) b :=
  map_mult (f := (mult · c)) (zero_mult c) (fun a a' => mult_xor_left a a' c)
    (fun a => (double_mult a c).symm) a b

theorem mult_comm (a b : UInt8) : mult a b = mult b a := by
  have h := mult_right_comm 1 a b
  rwa [one_mult, one_mult] at h

theorem mult_assoc (a b c : UInt8) : mult (mult a b) c = mult a (mult b c) := by
  rw [mult_comm a b, mult_right_comm, mult_comm]

theorem double_eq_mult (a : UInt8) : double a = mult a 2 := by
  have h := double_mult 1 a
  rw [one_mult] at h
  rw [h, mult_comm]
  rfl

theorem byte_induction {p : UInt8 → Prop} (zero : p 0) (one : p 1)
    (xor : ∀ a b, p a → p b → p (a ^^^ b)) (step : ∀ a, p a → p (double a)) (b : UInt8) :
    p b := by
  have hfold : ∀ (indices : List UInt8) (r : UInt8), p r →
      p (indices.foldl (multStep 1 b) r) := by
    intro indices
    induction indices with
    | nil => exact fun r hr => hr
    | cons i indices ih =>
      intro r hr
      apply ih
      rw [multStep_eq]
      apply xor _ _ _ (step r hr)
      rcases pick_eq b i with h | h
      · rw [h]
        exact zero
      · rw [h]
        exact one
  rw [← one_mult b]
  exact hfold _ 0 zero

/-! The field -/

@[ext] structure Elem where
  byte : UInt8
  deriving DecidableEq

namespace Elem

instance : Zero Elem := ⟨⟨0⟩⟩
instance : One Elem := ⟨⟨1⟩⟩
instance : Add Elem := ⟨fun a b => ⟨add a.byte b.byte⟩⟩
instance : Neg Elem := ⟨id⟩
instance : Mul Elem := ⟨fun a b => ⟨mult a.byte b.byte⟩⟩
instance : Inv Elem := ⟨fun a => ⟨inverse a.byte⟩⟩

@[simp] theorem byte_zero : (0 : Elem).byte = 0 := rfl
@[simp] theorem byte_one : (1 : Elem).byte = 1 := rfl
@[simp] theorem byte_add (a b : Elem) : (a + b).byte = add a.byte b.byte := rfl
@[simp] theorem byte_mul (a b : Elem) : (a * b).byte = mult a.byte b.byte := rfl

instance : CommRing Elem where
  add_assoc a b c := Elem.ext (UInt8.xor_assoc _ _ _)
  zero_add a := Elem.ext UInt8.zero_xor
  add_zero a := Elem.ext UInt8.xor_zero
  add_comm a b := Elem.ext (UInt8.xor_comm _ _)
  neg_add_cancel a := Elem.ext UInt8.xor_self
  mul_assoc a b c := Elem.ext (mult_assoc _ _ _)
  mul_comm a b := Elem.ext (mult_comm _ _)
  one_mul a := Elem.ext (one_mult _)
  mul_one a := Elem.ext ((mult_comm _ _).trans (one_mult _))
  zero_mul a := Elem.ext (zero_mult _)
  mul_zero a := Elem.ext ((mult_comm _ _).trans (zero_mult _))
  right_distrib a b c := Elem.ext (mult_xor_left _ _ _)
  left_distrib a b c := Elem.ext (by
    simp only [byte_mul, byte_add, add, mult_comm a.byte]
    exact mult_xor_left _ _ _)
  nsmul := nsmulRec
  zsmul := zsmulRec

theorem add_self (a : Elem) : a + a = 0 := Elem.ext UInt8.xor_self

theorem sq_add (a b : Elem) : (a + b) ^ 2 = a ^ 2 + b ^ 2 := by
  have hcross : (a + b) ^ 2 = a ^ 2 + b ^ 2 + (a * b + a * b) := by ring
  rw [hcross, add_self, add_zero]

theorem pow_256 (a : Elem) : a ^ 256 = a := by
  have hsquares : ∀ a : Elem, a ^ 256 = (((((((a ^ 2) ^ 2) ^ 2) ^ 2) ^ 2) ^ 2) ^ 2) ^ 2 := by
    intro a
    ring
  have hadd : ∀ a b : Elem, (a + b) ^ 256 = a ^ 256 + b ^ 256 := by
    intro a b
    simp only [hsquares, sq_add]
  have htwo : (⟨2⟩ : Elem) ^ 256 = ⟨2⟩ := by
    rw [hsquares]
    decide +kernel
  obtain ⟨byte⟩ := a
  induction byte using byte_induction with
  | zero => exact zero_pow (by decide)
  | one => exact one_pow 256
  | xor a b ha hb =>
    have hsum : (⟨a ^^^ b⟩ : Elem) = ⟨a⟩ + ⟨b⟩ := rfl
    rw [hsum, hadd, ha, hb]
  | step a ha =>
    have hproduct : (⟨double a⟩ : Elem) = ⟨a⟩ * ⟨2⟩ := Elem.ext (double_eq_mult a)
    rw [hproduct, mul_pow, ha, htwo]

theorem eq_zero_or_one_of_idempotent {e : Elem} (h : e * e = e) : e = 0 ∨ e = 1 := by
  have hall : ∀ n : Fin 256, mult (UInt8.ofFin n) (UInt8.ofFin n) = UInt8.ofFin n →
      n = 0 ∨ n = 1 := by
    decide +kernel
  obtain ⟨byte⟩ := e
  rcases hall byte.toFin (congrArg Elem.byte h) with hzero | hone
  · exact .inl (Elem.ext (UInt8.toFin_inj.mp hzero))
  · exact .inr (Elem.ext (UInt8.toFin_inj.mp hone))

theorem mult_pow {a : Elem} {x y : UInt8} {m n : Nat} (hx : ⟨x⟩ = a ^ m) (hy : ⟨y⟩ = a ^ n) :
    (⟨mult x y⟩ : Elem) = a ^ (m + n) := by
  rw [pow_add, ← hx, ← hy]
  rfl

theorem inv_eq_pow (a : Elem) : a⁻¹ = a ^ 254 := by
  have h1 : (⟨a.byte⟩ : Elem) = a ^ 1 := (pow_one a).symm
  have h2 := mult_pow h1 h1
  have h3 := mult_pow h1 h2
  have h6 := mult_pow h3 h3
  have h12 := mult_pow h6 h6
  have h15 := mult_pow h12 h3
  have h24 := mult_pow h12 h12
  have h48 := mult_pow h24 h24
  have h63 := mult_pow h48 h15
  have h126 := mult_pow h63 h63
  have h127 := mult_pow h1 h126
  exact mult_pow h127 h127

theorem mul_inv_cancel {a : Elem} (h : a ≠ 0) : a * a⁻¹ = 1 := by
  have hproduct : a * a⁻¹ = a ^ 255 := by
    rw [inv_eq_pow]
    ring
  have hsquare : a ^ 255 * a ^ 255 = a ^ 255 :=
    calc a ^ 255 * a ^ 255 = a ^ 256 * a ^ 254 := by ring
      _ = a * a ^ 254 := by rw [pow_256]
      _ = a ^ 255 := by ring
  rcases eq_zero_or_one_of_idempotent hsquare with hzero | hone
  · have hnil : a = 0 :=
      calc a = a ^ 256 := (pow_256 a).symm
        _ = a * a ^ 255 := by ring
        _ = 0 := by rw [hzero, mul_zero]
    exact absurd hnil h
  · rw [hproduct, hone]

instance : Field Elem where
  exists_pair_ne := ⟨0, 1, by decide⟩
  mul_inv_cancel _ h := mul_inv_cancel h
  inv_zero := by decide
  nnqsmul := _
  nnqsmul_def := fun _ _ => rfl
  qsmul := _
  qsmul_def := fun _ _ => rfl

end Elem

theorem div_eq (a b : UInt8) (h : b ≠ 0) : div a b = some (⟨a⟩ / ⟨b⟩ : Elem).byte := by
  have hproduct : (⟨a⟩ / ⟨b⟩ : Elem).byte = mult a (inverse b) := by
    rfl
  rw [div, if_neg h, hproduct]
  show some (if a = 0 then 0 else mult a (inverse b)) = _
  by_cases ha : a = 0
  · rw [if_pos ha, ha, zero_mult]
  · rw [if_neg ha]

end VaultProofs.ByteField
