import VaultProofs.VaultEffects
import VaultProofs.ByteField
import VaultProofs.ListPolynomials

/-!
Splitting a secret into shares and combining them. Every byte of the secret is the intercept of a
polynomial of its own; a share holds the values of all of them at one point, and the point. Random
bytes and the permutation of the points are given.
-/

namespace VaultProofs.ShamirShares

open GoStrings VaultEffects ByteField ListPolynomials

structure Polynomial where
  coefficients : List UInt8
  nonempty : coefficients ≠ []

/-- The random bytes fill the coefficients after the first. The degree is below 255, so the length
of the slice does not overflow. -/
def makePolynomial (intercept degree : UInt8)
    (random : Except GoError (Fin degree.toNat → UInt8)) : Except GoError Polynomial := do
  let bytes ← random
  return ⟨intercept :: List.ofFn bytes, List.cons_ne_nil _ _⟩

def Polynomial.evaluate (p : Polynomial) (x : UInt8) : UInt8 :=
  if x = 0 then p.coefficients.head p.nonempty
  else p.coefficients.dropLast.foldr (fun coeff out => add (mult out x) coeff)
    (p.coefficients.getLast p.nonempty)

-- An index out of range and a division by zero panic.
def basisAt (xSamples : List UInt8) (x : UInt8) (i : Nat) : Option UInt8 :=
  (List.range xSamples.length).foldlM (fun basis j => do
    if i = j then return basis
    let xi ← xSamples[i]?
    let xj ← xSamples[j]?
    let term ← div (add x xj) (add xi xj)
    return mult basis term) 1

def interpolatePolynomial (xSamples ySamples : List UInt8) (x : UInt8) : Option UInt8 :=
  (List.range xSamples.length).foldlM (fun result i => do
    let basis ← basisAt xSamples x i
    let y ← ySamples[i]?
    return add result (mult y basis)) 0

def degreeOf (threshold : Int) : UInt8 :=
  UInt8.ofNat (threshold - 1).toNat

def xCoordinate (xCoordinates : List Nat) (i : Nat) : UInt8 :=
  UInt8.ofNat (xCoordinates.getD i 0) + 1

def shareAt (polynomials : List Polynomial) (x : UInt8) : List UInt8 :=
  polynomials.map (·.evaluate x) ++ [x]

def split (secret : List UInt8) (parts threshold : Int) (xCoordinates : List Nat)
    (random : Nat → Except GoError (Fin (degreeOf threshold).toNat → UInt8)) :
    Except GoError (List (List UInt8)) :=
  if parts < threshold then
    .error (.message (ofString "parts cannot be less than threshold"))
  else if 255 < parts then .error (.message (ofString "parts cannot exceed 255"))
  else if threshold < 2 then .error (.message (ofString "threshold must be at least 2"))
  else if 255 < threshold then .error (.message (ofString "threshold cannot exceed 255"))
  else if secret.isEmpty then .error (.message (ofString "cannot split an empty secret"))
  else do
    let polynomials ← secret.zipIdx.mapM fun byte =>
      match makePolynomial byte.1 (degreeOf threshold) (random byte.2) with
      | .ok p => .ok p
      | .error err => .error (.wrapped "failed to generate polynomial" err)
    return (List.range parts.toNat).map fun i =>
      shareAt polynomials (xCoordinate xCoordinates i)

/-- No result stands for a panic. -/
def combine (parts : List (List UInt8)) : Option (Except GoError (List UInt8)) :=
  let fault (text : String) := some (.error (.message (ofString text)))
  let firstPartLen := (parts.headD []).length
  let xSamples := parts.map (·.getD (firstPartLen - 1) 0)
  if parts.length < 2 then
    fault "less than two parts cannot be used to reconstruct the secret"
  else if firstPartLen < 2 then fault "parts must be at least two bytes"
  else if parts.any (·.length != firstPartLen) then
    fault "all parts must be the same length"
  else if ¬ xSamples.Nodup then fault "duplicate part detected"
  else
    ((List.range (firstPartLen - 1)).mapM fun idx =>
      interpolatePolynomial xSamples (parts.map (·.getD idx 0)) 0).map .ok

/-! Evaluation and interpolation -/

theorem foldr_evaluate (cs : List UInt8) (last x : UInt8) :
    (⟨cs.foldr (fun coeff out => add (mult out x) coeff) last⟩ : Elem) =
      (ofList ((cs ++ [last]).map Elem.mk)).eval ⟨x⟩ := by
  induction cs with
  | nil => simp [ofList]
  | cons c cs ih =>
    rw [List.cons_append, List.map_cons, eval_ofList_cons, ← ih, add_comm, mul_comm]
    rfl

theorem evaluate_eq (p : Polynomial) (x : UInt8) :
    (⟨p.evaluate x⟩ : Elem) = (ofList (p.coefficients.map Elem.mk)).eval ⟨x⟩ := by
  unfold Polynomial.evaluate
  split
  · rename_i hzero
    obtain ⟨c, cs, hcs⟩ := List.exists_cons_of_ne_nil p.nonempty
    have hx : (⟨x⟩ : Elem) = 0 := Elem.ext hzero
    simp [hcs, hx]
  · rw [foldr_evaluate, List.dropLast_append_getLast]

variable {xSamples ySamples : List UInt8}

def sample (samples : List UInt8) (i : Nat) : Elem :=
  ⟨samples.getD i 0⟩

theorem sample_injOn (h : xSamples.Nodup) :
    Set.InjOn (sample xSamples) (Finset.range xSamples.length) := by
  intro i hi j hj heq
  have hi' := Finset.mem_range.mp hi
  have hj' := Finset.mem_range.mp hj
  have hbyte := congrArg Elem.byte heq
  simp only [sample] at hbyte
  rw [List.getD_eq_getElem _ _ hi', List.getD_eq_getElem _ _ hj'] at hbyte
  exact (List.Nodup.getElem_inj_iff h).mp hbyte

theorem getElem?_of_lt {samples : List UInt8} {i : Nat} (hi : i < samples.length) :
    samples[i]? = some (sample samples i).byte := by
  rw [sample, List.getD_eq_getElem _ _ hi]
  exact List.getElem?_eq_getElem hi

theorem basisAt_eq (h : xSamples.Nodup) (x : UInt8) {i : Nat} (hi : i < xSamples.length) :
    basisAt xSamples x i =
      some (∏ j ∈ (Finset.range xSamples.length).erase i,
        ((⟨x⟩ : Elem) - sample xSamples j) / (sample xSamples i - sample xSamples j)).byte := by
  have hterm : ∀ j < xSamples.length, i ≠ j →
      div (add x (sample xSamples j).byte)
          (add (sample xSamples i).byte (sample xSamples j).byte) =
        some (((⟨x⟩ : Elem) - sample xSamples j) /
          (sample xSamples i - sample xSamples j)).byte := by
    intro j hj hne
    apply div_eq
    intro hzero
    have hsame : sample xSamples i - sample xSamples j = 0 := Elem.ext hzero
    exact hne (sample_injOn h (Finset.mem_range.mpr hi) (Finset.mem_range.mpr hj)
      (sub_eq_zero.mp hsame))
  -- After `m` rounds the product runs over the first `m` samples.
  have hrounds : ∀ m ≤ xSamples.length, (List.range m).foldlM (fun basis j => do
      if i = j then return basis
      let xi ← xSamples[i]?
      let xj ← xSamples[j]?
      let term ← div (add x xj) (add xi xj)
      return mult basis term) 1 =
        some (∏ j ∈ (Finset.range m).erase i,
          ((⟨x⟩ : Elem) - sample xSamples j) / (sample xSamples i - sample xSamples j)).byte := by
    intro m hm
    induction m with
    | zero => rfl
    | succ m ih =>
      have hm' : m < xSamples.length := hm
      rw [List.range_succ, List.foldlM_append, ih hm'.le, Finset.range_add_one]
      by_cases him : i = m
      · subst him
        simp [Finset.erase_eq_of_notMem]
      · rw [Finset.erase_insert_of_ne (Ne.symm him), Finset.prod_insert (by simp), mul_comm]
        simp [him, getElem?_of_lt hi, getElem?_of_lt hm', hterm m hm' him]
  exact hrounds _ le_rfl

theorem interpolatePolynomial_eq (h : xSamples.Nodup) (hlength : ySamples.length = xSamples.length)
    (x : UInt8) :
    interpolatePolynomial xSamples ySamples x =
      some (lagrangeAt xSamples.length (sample xSamples) (sample ySamples) ⟨x⟩).byte := by
  have hrounds : ∀ m ≤ xSamples.length, (List.range m).foldlM (fun result i => do
      let basis ← basisAt xSamples x i
      let y ← ySamples[i]?
      return add result (mult y basis)) 0 =
        some (∑ i ∈ Finset.range m, sample ySamples i *
          ∏ j ∈ (Finset.range xSamples.length).erase i,
            ((⟨x⟩ : Elem) - sample xSamples j) /
              (sample xSamples i - sample xSamples j)).byte := by
    intro m hm
    induction m with
    | zero => rfl
    | succ m ih =>
      have hm' : m < xSamples.length := hm
      have hy : m < ySamples.length := hlength ▸ hm'
      rw [List.range_succ, List.foldlM_append, ih hm'.le, Finset.sum_range_succ]
      simp [basisAt_eq h x hm', getElem?_of_lt hy]
  exact hrounds _ le_rfl

theorem interpolatePolynomial_evaluate (p : Polynomial) (h : xSamples.Nodup)
    (hlength : p.coefficients.length ≤ xSamples.length) (x : UInt8) :
    interpolatePolynomial xSamples (xSamples.map p.evaluate) x = some (p.evaluate x) := by
  have hdegree : (ofList (p.coefficients.map Elem.mk)).degree < xSamples.length := by
    have hlt := degree_ofList_lt (p.coefficients.map Elem.mk)
    rw [List.length_map] at hlt
    exact lt_of_lt_of_le hlt (Nat.cast_le.mpr hlength)
  have hvalues : ∀ i < xSamples.length, sample (xSamples.map p.evaluate) i =
      (ofList (p.coefficients.map Elem.mk)).eval (sample xSamples i) := by
    intro i hi
    rw [sample, List.getD_eq_getElem _ _ (by simpa using hi), List.getElem_map, evaluate_eq,
      sample, List.getD_eq_getElem _ _ hi]
  rw [interpolatePolynomial_eq h (List.length_map _),
    lagrangeAt_eq_eval (sample_injOn h) hdegree hvalues, ← evaluate_eq]

/-! Shares -/

theorem toNat_degreeOf {threshold : Int} (hmin : 2 ≤ threshold) (hmax : threshold ≤ 255) :
    ((degreeOf threshold).toNat : Int) = threshold - 1 := by
  rw [degreeOf, UInt8.toNat_ofNat']
  omega

variable {xCoordinates : List Nat}

theorem toNat_xCoordinate (hperm : xCoordinates.Perm (List.range 255)) {i : Nat} (hi : i < 255) :
    (xCoordinate xCoordinates i).toNat = xCoordinates.getD i 0 + 1 := by
  have hlength : xCoordinates.length = 255 := by simpa using hperm.length_eq
  have hlt : xCoordinates.getD i 0 < 255 := by
    rw [List.getD_eq_getElem _ _ (hlength ▸ hi)]
    exact List.mem_range.mp (hperm.subset (List.getElem_mem _))
  show (xCoordinates.getD i 0 % 256 + 1) % 256 = _
  omega

theorem xCoordinate_ne_zero (hperm : xCoordinates.Perm (List.range 255)) {i : Nat} (hi : i < 255) :
    xCoordinate xCoordinates i ≠ 0 := by
  intro hzero
  have hbyte := toNat_xCoordinate hperm hi
  rw [hzero] at hbyte
  cases hbyte

theorem xCoordinate_inj (hperm : xCoordinates.Perm (List.range 255)) {i j : Nat} (hi : i < 255)
    (hj : j < 255) (h : xCoordinate xCoordinates i = xCoordinate xCoordinates j) : i = j := by
  have hlength : xCoordinates.length = 255 := by simpa using hperm.length_eq
  have hbyte := congrArg UInt8.toNat h
  rw [toNat_xCoordinate hperm hi, toNat_xCoordinate hperm hj, Nat.add_right_cancel_iff,
    List.getD_eq_getElem _ _ (hlength ▸ hi), List.getD_eq_getElem _ _ (hlength ▸ hj)] at hbyte
  exact (List.Nodup.getElem_inj_iff (hperm.nodup_iff.mpr List.nodup_range)).mp hbyte

theorem mapM_eq_some_map {α β : Type} {f : α → Option β} {g : α → β} {xs : List α}
    (h : ∀ x ∈ xs, f x = some (g x)) : xs.mapM f = some (xs.map g) := by
  induction xs with
  | nil => rfl
  | cons x xs ih =>
    rw [List.mapM_cons, h x (.head _),
      ih fun y hy => h y (.tail _ hy)]
    rfl

variable {secret : List UInt8} {parts threshold : Int} {xCoordinates : List Nat}

def polynomialsOf (secret : List UInt8) {n : Nat} (coefficients : Nat → Fin n → UInt8) :
    List Polynomial :=
  secret.zipIdx.map fun byte =>
    ⟨byte.1 :: List.ofFn (coefficients byte.2), List.cons_ne_nil _ _⟩

theorem split_eq_ok (hsecret : secret ≠ []) (hmin : 2 ≤ threshold) (hle : threshold ≤ parts)
    (hmax : parts ≤ 255) (coefficients : Nat → Fin (degreeOf threshold).toNat → UInt8) :
    split secret parts threshold xCoordinates (fun idx => .ok (coefficients idx)) =
      .ok ((List.range parts.toNat).map fun i =>
        shareAt (polynomialsOf secret coefficients) (xCoordinate xCoordinates i)) := by
  have hpolynomials : (secret.zipIdx.mapM fun byte =>
      match makePolynomial byte.1 (degreeOf threshold) (.ok (coefficients byte.2)) with
      | .ok p => .ok p
      | .error err => .error (.wrapped "failed to generate polynomial" err)) =
        (.ok (polynomialsOf secret coefficients) : Except GoError _) :=
    List.mapM_pure
  rw [split, if_neg (by omega), if_neg (by omega), if_neg (by omega), if_neg (by omega),
    if_neg (by simpa using hsecret), hpolynomials]
  rfl

theorem combine_shares {polynomials : List Polynomial} {xs : List UInt8} (hxs : xs.Nodup)
    (htwo : 2 ≤ xs.length) (hne : polynomials ≠ [])
    (hlength : ∀ p ∈ polynomials, p.coefficients.length ≤ xs.length) :
    combine (xs.map (shareAt polynomials)) = some (.ok (polynomials.map (·.evaluate 0))) := by
  have hshare : ∀ x, (shareAt polynomials x).length = polynomials.length + 1 := by
    simp [shareAt]
  have hfirst : ((xs.map (shareAt polynomials)).headD []).length = polynomials.length + 1 := by
    obtain ⟨x, xs, rfl⟩ := List.exists_cons_of_length_pos (Nat.lt_of_lt_of_le Nat.two_pos htwo)
    exact hshare x
  have hpos := List.length_pos_of_ne_nil hne
  have hpoint : ∀ x, (shareAt polynomials x).getD polynomials.length 0 = x := by
    intro x
    simp [shareAt]
  have hpoints : (xs.map (shareAt polynomials)).map (·.getD polynomials.length 0) = xs := by
    rw [List.map_map]
    exact List.map_id'' hpoint xs
  have hvalues : ∀ idx (hidx : idx < polynomials.length),
      (xs.map (shareAt polynomials)).map (·.getD idx 0) =
        xs.map (polynomials.get ⟨idx, hidx⟩).evaluate := by
    intro idx hidx
    rw [List.map_map]
    refine List.map_congr_left fun x _ => ?_
    show (shareAt polynomials x).getD idx 0 = _
    rw [shareAt, List.getD_append _ _ _ _ (by simpa using hidx),
      List.getD_eq_getElem _ _ (by simpa using hidx), List.getElem_map]
    rfl
  have hbytes : ((List.range polynomials.length).mapM fun idx =>
      interpolatePolynomial xs ((xs.map (shareAt polynomials)).map (·.getD idx 0)) 0) =
        some (polynomials.map (·.evaluate 0)) := by
    have hbyte : ∀ idx ∈ List.range polynomials.length,
        interpolatePolynomial xs ((xs.map (shareAt polynomials)).map (·.getD idx 0)) 0 =
          some ((polynomials.map (·.evaluate 0)).getD idx 0) := by
      intro idx hmem
      have hidx := List.mem_range.mp hmem
      rw [hvalues idx hidx, interpolatePolynomial_evaluate _ hxs (hlength _ (List.get_mem _ _)),
        List.getD_eq_getElem _ _ (by simpa using hidx), List.getElem_map]
      rfl
    rw [mapM_eq_some_map hbyte]
    congr 1
    apply List.ext_getElem
    · simp
    · intro idx _ hidx
      rw [List.getElem_map, List.getElem_range, List.getD_eq_getElem _ _ hidx]
  simp only [combine, hfirst, Nat.add_sub_cancel, hpoints, List.length_map]
  rw [if_neg (by omega), if_neg (by omega), if_neg (by simp [hshare]), if_neg (by simpa using hxs),
    hbytes]
  rfl

theorem intercepts_polynomialsOf {n : Nat} (coefficients : Nat → Fin n → UInt8) :
    (polynomialsOf secret coefficients).map (·.evaluate 0) = secret := by
  rw [polynomialsOf, List.map_map]
  exact List.zipIdx_map_fst 0 secret

/-- Any `threshold` distinct shares or more, in any order, give the secret back. -/
theorem combine_split (hsecret : secret ≠ []) (hmin : 2 ≤ threshold) (hle : threshold ≤ parts)
    (hmax : parts ≤ 255) (hperm : xCoordinates.Perm (List.range 255))
    (coefficients : Nat → Fin (degreeOf threshold).toNat → UInt8) :
    ∃ out,
      split secret parts threshold xCoordinates (fun idx => .ok (coefficients idx)) = .ok out ∧
      out.length = parts ∧ out.Nodup ∧
      ∀ shares : List (List UInt8), shares.Nodup → shares ⊆ out → threshold ≤ shares.length →
        combine shares = some (.ok secret) := by
  set polynomials := polynomialsOf secret coefficients
  refine ⟨_, split_eq_ok hsecret hmin hle hmax coefficients, ?_, ?_, ?_⟩
  · rw [List.length_map, List.length_range]
    omega
  · apply List.Nodup.map_on _ List.nodup_range
    intro i hi j hj heq
    have hi' := List.mem_range.mp hi
    have hj' := List.mem_range.mp hj
    refine xCoordinate_inj hperm (by omega) (by omega) ?_
    exact List.singleton_inj.mp (List.append_inj_right' heq rfl)
  intro shares hnodup hsub hlength
  -- A share is determined by its point.
  have hpoint : ∀ share ∈ shares, shareAt polynomials (share.getLastD 0) = share := by
    intro share hshare
    obtain ⟨i, _, rfl⟩ := List.mem_map.mp (hsub hshare)
    simp [shareAt, polynomials]
  have hshares : (shares.map (·.getLastD 0)).map (shareAt polynomials) = shares := by
    rw [List.map_map]
    exact (List.map_congr_left (g := id) hpoint).trans (List.map_id shares)
  have hdegree := toNat_degreeOf hmin (hle.trans hmax)
  rw [← hshares, combine_shares, intercepts_polynomialsOf]
  · rw [← hshares] at hnodup
    exact hnodup.of_map
  · rw [List.length_map]
    omega
  · intro hnil
    exact hsecret (by simpa [polynomials, polynomialsOf] using congrArg List.length hnil)
  intro p hp
  obtain ⟨byte, _, rfl⟩ := List.mem_map.mp hp
  simp only [List.length_cons, List.length_ofFn, List.length_map]
  omega

theorem combine_split_sample :
    ∃ out, split [7, 9] 3 2 (List.range 255) (fun _ => .ok fun _ => 5) = .ok out ∧
      ∀ shares : List (List UInt8), shares.Nodup → shares ⊆ out → 2 ≤ (shares.length : Int) →
        combine shares = some (.ok [7, 9]) := by
  obtain ⟨out, hsplit, _, _, hcombine⟩ := @combine_split [7, 9] 3 2 (List.range 255)
    (by decide) (by decide) (by decide) (by decide) (List.Perm.refl _) fun _ _ => 5
  exact ⟨out, hsplit, hcombine⟩

/-! Fewer shares than the threshold -/

theorem existsUnique_coefficients_bytes {n : Nat} {x : Fin n → UInt8}
    (hinj : Function.Injective x) (hne : ∀ i, x i ≠ 0) (secret : UInt8) (y : Fin n → UInt8) :
    ∃! coefficients : Fin n → UInt8, ∀ i,
      Polynomial.evaluate ⟨secret :: List.ofFn coefficients, List.cons_ne_nil _ _⟩ (x i) = y i := by
  have hpoints : Function.Injective fun i => (⟨x i⟩ : Elem) :=
    fun i j h => hinj (congrArg Elem.byte h)
  have hnonzero : ∀ i, (⟨x i⟩ : Elem) ≠ 0 := fun i h => hne i (congrArg Elem.byte h)
  have hvalues : ∀ coefficients : Fin n → UInt8,
      (∀ i, Polynomial.evaluate ⟨secret :: List.ofFn coefficients, List.cons_ne_nil _ _⟩ (x i) =
        y i) ↔
      ∀ i, (ofList (⟨secret⟩ :: List.ofFn fun k => (⟨coefficients k⟩ : Elem))).eval ⟨x i⟩ =
        ⟨y i⟩ := by
    intro coefficients
    refine forall_congr' fun i => ?_
    have heval := evaluate_eq ⟨secret :: List.ofFn coefficients, List.cons_ne_nil _ _⟩ (x i)
    rw [List.map_cons, List.map_ofFn] at heval
    rw [← Elem.mk.injEq, heval]
    rfl
  obtain ⟨cs, hcs, hunique⟩ := existsUnique_with_intercept hpoints hnonzero ⟨secret⟩
    fun i => (⟨y i⟩ : Elem)
  refine ⟨fun k => (cs k).byte, (hvalues _).mpr hcs, ?_⟩
  intro coefficients hcoefficients
  have hsame := hunique _ ((hvalues coefficients).mp hcoefficients)
  exact funext fun k => congrArg Elem.byte (congrFun hsame k)

/-- Fewer shares than the threshold say nothing about a byte: every value of it goes with
exactly one choice of the random coefficients. -/
theorem secrecy_below_threshold {threshold : Int} (hmin : 2 ≤ threshold)
    (hmax : threshold ≤ 255) :
    ((degreeOf threshold).toNat : Int) = threshold - 1 ∧
      (∀ x y : Fin (degreeOf threshold).toNat → UInt8, Function.Injective x → (∀ i, x i ≠ 0) →
        ∀ secret, ∃! coefficients : Fin (degreeOf threshold).toNat → UInt8,
          ∃ p, makePolynomial secret (degreeOf threshold) (.ok coefficients) = .ok p ∧
            ∀ i, p.evaluate (x i) = y i) ∧
      ∀ (parts : Int) (xCoordinates : List Nat), threshold ≤ parts → parts ≤ 255 →
        xCoordinates.Perm (List.range 255) →
        ∀ place : Fin (degreeOf threshold).toNat → Nat, Function.Injective place →
          (∀ i, place i < parts) → ∀ (y : Fin (degreeOf threshold).toNat → UInt8) (secret : UInt8),
            Nat.card {coefficients : Fin (degreeOf threshold).toNat → UInt8 //
              ∃ out, split [secret] parts threshold xCoordinates (fun _ => .ok coefficients) =
                  .ok out ∧
                ∀ i, out[place i]? = some [y i, xCoordinate xCoordinates (place i)]} = 1 := by
  refine ⟨toNat_degreeOf hmin hmax, ?_, ?_⟩
  · intro x y hinj hne secret
    have hmake : ∀ coefficients : Fin (degreeOf threshold).toNat → UInt8,
        (∃ p, makePolynomial secret (degreeOf threshold) (.ok coefficients) = .ok p ∧
            ∀ i, p.evaluate (x i) = y i) ↔
          ∀ i, Polynomial.evaluate ⟨secret :: List.ofFn coefficients, List.cons_ne_nil _ _⟩
            (x i) = y i := by
      intro coefficients
      constructor
      · rintro ⟨p, hp, hvalues⟩
        cases hp
        exact hvalues
      · exact fun hvalues => ⟨_, rfl, hvalues⟩
    simp only [hmake]
    exact existsUnique_coefficients_bytes hinj hne secret y
  intro parts xCoordinates hle hparts hperm place hplace hplaces y secret
  have hplaces' : ∀ i, place i < parts.toNat ∧ place i < 255 := fun i => by
    have := hplaces i
    omega
  have hshares : ∀ coefficients : Fin (degreeOf threshold).toNat → UInt8,
      (∃ out, split [secret] parts threshold xCoordinates (fun _ => .ok coefficients) =
          .ok out ∧ ∀ i, out[place i]? = some [y i, xCoordinate xCoordinates (place i)]) ↔
        ∀ i, Polynomial.evaluate ⟨secret :: List.ofFn coefficients, List.cons_ne_nil _ _⟩
          (xCoordinate xCoordinates (place i)) = y i := by
    intro coefficients
    rw [split_eq_ok (List.cons_ne_nil _ _) hmin hle hparts fun _ => coefficients]
    simp only [Except.ok.injEq, exists_eq_left']
    refine forall_congr' fun i => ?_
    simp [(hplaces' i).1, shareAt, polynomialsOf]
  simp only [hshares]
  obtain ⟨coefficients, hcoefficients, hunique⟩ := existsUnique_coefficients_bytes
    (fun i j h => hplace (xCoordinate_inj hperm (hplaces' i).2 (hplaces' j).2 h))
    (fun i => xCoordinate_ne_zero hperm (hplaces' i).2) secret y
  rw [Nat.card_eq_one_iff_exists]
  exact ⟨⟨coefficients, hcoefficients⟩, fun other => Subtype.ext (hunique _ other.2)⟩

theorem secrecy_one_share :
    ((degreeOf 2).toNat : Int) = 2 - 1 ∧
      ∀ secret, ∃! coefficients : Fin (degreeOf 2).toNat → UInt8,
        ∃ p, makePolynomial secret (degreeOf 2) (.ok coefficients) = .ok p ∧
          ∀ _ : Fin (degreeOf 2).toNat, p.evaluate 3 = 200 := by
  obtain ⟨hdegree, hunique, _⟩ := secrecy_below_threshold (le_refl 2) (by decide)
  have hone : Subsingleton (Fin (degreeOf 2).toNat) := inferInstanceAs (Subsingleton (Fin 1))
  exact ⟨hdegree, hunique (fun _ => 3) (fun _ => 200) (fun _ _ _ => hone.elim _ _) (by decide)⟩

/-- Whatever is handed in, no division by zero and no index out of range is met, and a secret is
returned for two or more parts of one length with distinct points. -/
theorem combine_never_panics (parts : List (List UInt8)) : combine parts ≠ none ∧
    ((∃ secret, combine parts = some (.ok secret)) ↔ 2 ≤ parts.length ∧
      2 ≤ (parts.headD []).length ∧ (∀ part ∈ parts, part.length = (parts.headD []).length) ∧
      (parts.map (·.getD ((parts.headD []).length - 1) 0)).Nodup) := by
  simp only [combine]
  split_ifs with hcount hlength hsame hdistinct
  · exact ⟨by simp, iff_of_false (by simp) fun h => absurd h.1 (Nat.not_le.mpr hcount)⟩
  · exact ⟨by simp, iff_of_false (by simp) fun h => absurd h.2.1 (Nat.not_le.mpr hlength)⟩
  · refine ⟨by simp, iff_of_false (by simp) fun h => ?_⟩
    obtain ⟨part, hpart, hother⟩ := List.any_eq_true.mp hsame
    simp [h.2.2.1 part hpart] at hother
  · rw [mapM_eq_some_map fun idx _ => interpolatePolynomial_eq hdistinct (by simp) 0]
    refine ⟨by simp, iff_of_true ⟨_, rfl⟩ ⟨not_lt.mp hcount, not_lt.mp hlength, ?_, hdistinct⟩⟩
    simpa using hsame
  · exact ⟨by simp, iff_of_false (by simp) fun h => hdistinct h.2.2.2⟩

end VaultProofs.ShamirShares
