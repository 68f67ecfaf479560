import Mathlib.Data.List.GetD
import Mathlib.LinearAlgebra.Lagrange

/-!
Polynomials as lists of coefficients, lowest first, and their values at distinct points.
-/

namespace VaultProofs.ListPolynomials

open Polynomial
open Finset

variable {F : Type} [Field F]

noncomputable def ofList : List F → F[X]
  | [] => 0
  | c :: cs => C c + X * ofList cs

@[simp] theorem eval_ofList_cons (c : F) (cs : List F) (x : F) :
    (ofList (c :: cs)).eval x = c + x * (ofList cs).eval x := by
  simp [ofList]

theorem coeff_ofList (cs : List F) (i : ℕ) : (ofList cs).coeff i = cs.getD i 0 := by
  induction cs generalizing i with
  | nil => simp [ofList]
  | cons c cs ih =>
    cases i with
    | zero => simp [ofList]
    | succ i => simp [ofList, coeff_C_succ, ih]

theorem degree_ofList_lt (cs : List F) : (ofList cs).degree < cs.length := by
  rw [degree_lt_iff_coeff_zero]
  intro i hi
  rw [coeff_ofList, List.getD_eq_default _ _ hi]

theorem ofList_injOn_length {cs cs' : List F} (hlength : cs.length = cs'.length)
    (h : ofList cs = ofList cs') : cs = cs' := by
  apply List.ext_getElem hlength
  intro i hi hi'
  have hcoeff := congrArg (coeff · i) h
  simp only [coeff_ofList] at hcoeff
  rwa [List.getD_eq_getElem _ _ hi, List.getD_eq_getElem _ _ hi'] at hcoeff

variable {n : ℕ}

theorem ofList_ofFn_coeff {p : F[X]} (h : p.degree < n) :
    ofList (List.ofFn fun i : Fin n => p.coeff i) = p := by
  ext i
  rw [coeff_ofList]
  by_cases hi : i < n
  · rw [List.getD_eq_getElem _ _ (by simpa using hi), List.getElem_ofFn]
  · rw [List.getD_eq_default _ _ (by simpa using hi)]
    exact ((degree_lt_iff_coeff_zero p n).mp h i (Nat.le_of_not_lt hi)).symm

/-- The value at a point, by Lagrange's formula for the first `n` samples. -/
def lagrangeAt (n : ℕ) (v y : ℕ → F) (x : F) : F :=
  ∑ i ∈ range n, y i * ∏ j ∈ (range n).erase i, (x - v j) / (v i - v j)

theorem lagrangeAt_eq_eval {v y : ℕ → F} {p : F[X]} (hinj : Set.InjOn v (range n))
    (hdegree : p.degree < n) (hy : ∀ i < n, y i = p.eval (v i)) (x : F) :
    lagrangeAt n v y x = p.eval x := by
  have hp : p = Lagrange.interpolate (range n) v y := by
    apply Lagrange.eq_interpolate_of_eval_eq _ hinj
    · rwa [card_range]
    · exact fun i hi => (hy i (mem_range.mp hi)).symm
  rw [hp, Lagrange.interpolate_apply, eval_finsetSum, lagrangeAt]
  refine sum_congr rfl fun i _ => ?_
  rw [eval_mul, eval_C, Lagrange.basis, eval_prod]
  congr 1
  refine prod_congr rfl fun j _ => ?_
  simp [Lagrange.basisDivisor, div_eq_inv_mul]

theorem existsUnique_coefficients {v : Fin n → F} (hinj : Function.Injective v) (z : Fin n → F) :
    ∃! cs : Fin n → F, ∀ i, (ofList (List.ofFn cs)).eval (v i) = z i := by
  have hcard : (univ : Finset (Fin n)).card = n := card_fin n
  have hnodes : Set.InjOn v (univ : Finset (Fin n)) := hinj.injOn
  have hdegree : (Lagrange.interpolate univ v z).degree < n := by
    have h := Lagrange.degree_interpolate_lt z hnodes
    rwa [hcard] at h
  refine ⟨fun i => (Lagrange.interpolate univ v z).coeff i, ?_, ?_⟩
  · intro i
    rw [ofList_ofFn_coeff hdegree]
    exact Lagrange.eval_interpolate_at_node z hnodes (mem_univ i)
  intro cs hcs
  have hlt : (ofList (List.ofFn cs)).degree < (univ : Finset (Fin n)).card := by
    rw [hcard]
    have h := degree_ofList_lt (List.ofFn cs)
    rwa [List.length_ofFn] at h
  have hsame : ofList (List.ofFn cs) = Lagrange.interpolate univ v z :=
    Lagrange.eq_interpolate_of_eval_eq _ hnodes hlt fun i _ => hcs i
  apply List.ofFn_injective
  apply ofList_injOn_length (by simp)
  rw [hsame, ofList_ofFn_coeff hdegree]

theorem existsUnique_with_intercept {v : Fin n → F} (hinj : Function.Injective v)
    (hne : ∀ i, v i ≠ 0) (s : F) (y : Fin n → F) :
    ∃! cs : Fin n → F, ∀ i, (ofList (s :: List.ofFn cs)).eval (v i) = y i := by
  have hshift : ∀ cs : Fin n → F, (∀ i, (ofList (s :: List.ofFn cs)).eval (v i) = y i) ↔
      ∀ i, (ofList (List.ofFn cs)).eval (v i) = (y i - s) / v i := by
    intro cs
    refine forall_congr' fun i => ?_
    rw [eval_ofList_cons, eq_div_iff (hne i), eq_sub_iff_add_eq, add_comm, mul_comm]
  simp only [hshift]
  exact existsUnique_coefficients hinj _

end VaultProofs.ListPolynomials
