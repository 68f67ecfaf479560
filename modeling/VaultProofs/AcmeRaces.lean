import VaultProofs.GoStrings
import VaultProofs.RacingCalls

/-!
ACME requests that check first and write later: new accounts with one external account binding,
and finalizations of one order.
-/

namespace VaultProofs.AcmeRaces

open GoStrings RunHistories RacingCalls

/-- Whether the binding is stored, and the thumbprints of the keys that have accounts. -/
structure AccountStore where
  eab : Bool
  accounts : List GoString

inductive AccountStage where
  | loadAccountByKey
  | loadEab
  | readEab
  | deleteEab
  | createAccount
  | created
  | existing
  | refused (text : String)
  deriving DecidableEq

structure NewAccount where
  thumbprint : GoString
  stage : AccountStage

def errUnauthorized : String :=
  "The client lacks sufficient authorization"

def acmeNewAccountCreateHandler (_ : Unit) (r : NewAccount) (s : AccountStore) :
    NewAccount × AccountStore :=
  match r.stage with
  | .loadAccountByKey =>
    ({ r with stage := if r.thumbprint ∈ s.accounts then .existing else .loadEab }, s)
  | .loadEab =>
    if s.eab then ({ r with stage := .readEab }, s)
    else ({ r with stage := .refused (errUnauthorized ++ ": failed to verify eab") }, s)
  | .readEab =>
    if s.eab then ({ r with stage := .deleteEab }, s)
    else ({ r with stage := .refused ("eab was already used: " ++ errUnauthorized) }, s)
  | .deleteEab => ({ r with stage := .createAccount }, { s with eab := false })
  | .createAccount =>
    ({ r with stage := .created }, { s with accounts := r.thumbprint :: s.accounts })
  | _ => (r, s)

/-- The binding is not read for its deletion while another request is about to delete it. -/
def ReadAlone (s : Race AccountStore NewAccount) (e : Nat × Unit) : Prop :=
  ∀ r ∈ s.calls[e.1]?, r.stage = .readEab → ∀ r' ∈ s.calls, r'.stage ≠ .deleteEab

def Consumes (r : NewAccount) : Prop :=
  r.stage = .deleteEab ∨ r.stage = .createAccount ∨ r.stage = .created

instance (s : Race AccountStore NewAccount) (e : Nat × Unit) : Decidable (ReadAlone s e) :=
  inferInstanceAs (Decidable (∀ _ ∈ _, _))

/-- At most one request has found the binding, which is gone once it has deleted it. -/
structure Consumed (s : Race AccountStore NewAccount) : Prop where
  alone : Alone Consumes s.calls
  deleted : s.store.eab = true → ∀ r ∈ s.calls, Consumes r → r.stage = .deleteEab

variable {s : Race AccountStore NewAccount}

theorem Consumed.turn (h : Consumed s) {e : Nat × Unit} (hread : ReadAlone s e) :
    Consumed (turn acmeNewAccountCreateHandler s e) := by
  refine turn_keeps (fun r hr => ?_) h
  have hread := hread r hr
  have halone := h.alone
  have hdeleted := h.deleted
  constructor
  · grind [Alone, Consumes, acmeNewAccountCreateHandler]
  · grind [Alone, Consumes, acmeNewAccountCreateHandler]

/-- At most one of the requests creates an account with the binding. -/
theorem eab_creates_one_account {history : List (Nat × Unit)}
    (hs : ∀ r ∈ s.calls, r.stage = .loadAccountByKey)
    (hrun : Orderly (turn acmeNewAccountCreateHandler) ReadAlone s history) :
    Alone (fun r => r.stage = .created)
      (final (turn acmeNewAccountCreateHandler) s history).calls := by
  have hstart : Consumed s := by
    constructor
    · grind [Alone, Consumes]
    · grind [Consumes]
  have hend := hrun.keeps (fun _ _ h => h.turn) hstart
  intro i j a b ha hb hcreated hcreated'
  exact hend.alone i j a b ha hb (.inr (.inr hcreated)) (.inr (.inr hcreated'))

def twoAccounts : Race AccountStore NewAccount :=
  ⟨⟨true, []⟩, [⟨[1], .loadAccountByKey⟩, ⟨[2], .loadAccountByKey⟩]⟩

def turns (n : Nat) (alternate : Bool) : List (Nat × Unit) :=
  (List.range (2 * n)).map fun k => (if alternate then k % 2 else k / n, ())

theorem second_binding_refused : Alone (fun r => r.stage = .created)
    (final (turn acmeNewAccountCreateHandler) twoAccounts (turns 5 false)).calls :=
  eab_creates_one_account (by decide) (by decide)

theorem eab_creates_two_accounts :
    (final (turn acmeNewAccountCreateHandler) twoAccounts (turns 5 true)).calls.map
      NewAccount.stage = [.created, .created] := by
  decide

inductive OrderStatus where
  | pending | ready | processing | valid | invalid
  deriving DecidableEq

inductive AuthorizationStatus where
  | pending | valid | invalid | deactivated | expired | revoked
  deriving DecidableEq

structure Order where
  status : OrderStatus
  expires : Int
  authorizationIds : List Nat
  certificateSerialNumber : Option Nat
  deriving DecidableEq

/-- The order, its authorizations, and the serial numbers of the certificates stored and tracked for
it. -/
structure OrderStore where
  order : Order
  authorizations : Nat → AuthorizationStatus
  certificates : List Nat
  tracked : List Nat

/-- The next step of a finalization with the order it has loaded, or its answer. -/
inductive Finalization where
  | loadOrder
  | loadAuthorizations (order : Order)
  | storeCertificate (order : Order)
  | trackIssuedCert (order : Order) (serial : Nat)
  | saveOrder (order : Order)
  | finalized (order : Order)
  | notReady (status : OrderStatus)
  | expired
  | refused (text : String)
  deriving DecidableEq

structure FinalizeInput where
  now : Int
  /-- The clock when the handler reads it again. -/
  later : Int
  /-- What the checks of the CSR and the signing say. -/
  csrRefused : Option String
  serial : Nat

def authorizationsStatus (authorizations : Nat → AuthorizationStatus) : List Nat → OrderStatus
  | [] => .ready
  | id :: rest =>
    match authorizations id, authorizationsStatus authorizations rest with
    | .valid, status => status
    | .pending, .invalid => .invalid
    | .pending, _ => .pending
    | _, _ => .invalid

def computeOrderStatus (now : Int) (authorizations : Nat → AuthorizationStatus) (order : Order) :
    OrderStatus :=
  if order.status = .invalid ∨ order.status = .valid then order.status
  else if order.expires < now then .invalid
  else if order.status = .ready ∨ order.status = .processing then order.status
  else if order.authorizationIds = [] then .pending
  else authorizationsStatus authorizations order.authorizationIds

def acmeFinalizeOrderHandler (input : FinalizeInput) (call : Finalization) (s : OrderStore) :
    Finalization × OrderStore :=
  match call with
  | .loadOrder => (.loadAuthorizations s.order, s)
  | .loadAuthorizations order =>
    let status := computeOrderStatus input.now s.authorizations order
    if status ≠ .ready then (.notReady status, s)
    else if order.expires ≠ 0 ∧ order.expires < input.later then (.expired, s)
    else
      match input.csrRefused with
      | some text => (.refused text, s)
      | none => (.storeCertificate { order with status := .ready }, s)
  | .storeCertificate order =>
    (.trackIssuedCert order input.serial,
      { s with certificates := input.serial :: s.certificates })
  | .trackIssuedCert order serial =>
    (.saveOrder { order with status := .valid, certificateSerialNumber := some serial },
      { s with tracked := serial :: s.tracked })
  | .saveOrder order => (.finalized order, { s with order })
  | call => (call, s)

def Finalization.underWay : Finalization → Bool
  | .loadAuthorizations _ => true
  | .storeCertificate _ => true
  | .trackIssuedCert _ _ => true
  | .saveOrder _ => true
  | _ => false

/-- The order is not loaded while another finalization of it is under way. -/
def LoadsAlone (s : Race OrderStore Finalization) (e : Nat × FinalizeInput) : Prop :=
  s.calls[e.1]? = some .loadOrder → ∀ other ∈ s.calls, other.underWay = false

instance (s : Race OrderStore Finalization) (e : Nat × FinalizeInput) :
    Decidable (LoadsAlone s e) :=
  inferInstanceAs (Decidable (_ → _))

/-- What the finalization that is under way has done so far. -/
def Finalization.Fits (s : OrderStore) : Finalization → Prop
  | .loadAuthorizations order => order = s.order ∧ (s.certificates ≠ [] → order.status = .valid)
  | .storeCertificate _ => s.certificates = []
  | .saveOrder order => order.status = .valid
  | _ => True

structure Single (s : Race OrderStore Finalization) : Prop where
  alone : Alone (·.underWay = true) s.calls
  fits : ∀ (i : Nat) call, s.calls[i]? = some call → call.Fits s.store
  certificates : s.store.certificates.length ≤ 1
  issued : s.store.certificates ≠ [] →
    (∀ (i : Nat) call, s.calls[i]? = some call → call.underWay = false) →
      s.store.order.status = .valid

variable {s : Race OrderStore Finalization}

theorem Single.turn (h : Single s) {e : Nat × FinalizeInput} (hloads : LoadsAlone s e) :
    Single (turn acmeFinalizeOrderHandler s e) := by
  refine turn_keeps (fun call hi => ?_) h
  obtain ⟨i, input⟩ := e
  obtain ⟨halone, hfits, hcertificates, hissued⟩ := h
  have hcall := hfits i call hi
  -- The other calls wait, whichever step the call takes.
  have hothers : ∀ j other, j ≠ i → s.calls[j]? = some other → call.underWay = true ∨
      call = .loadOrder → other.underWay = false := by
    grind [Alone, LoadsAlone]
  have hidle : ∀ other : Finalization, other.underWay = false → ∀ s, other.Fits s := by
    intro other hother s
    cases other <;> trivial
  have hwaits : (acmeFinalizeOrderHandler input call s.store).1.underWay = true →
      call.underWay = true ∨ call = .loadOrder := by
    cases call <;> simp [acmeFinalizeOrderHandler, Finalization.underWay]
  constructor
  · intro j k a b ha hb hpa hpb
    have hold := fun ha hb => halone j k a b ha hb hpa hpb
    grind
  · cases call <;> grind [acmeFinalizeOrderHandler, Finalization.underWay, Finalization.Fits,
      LoadsAlone, computeOrderStatus]
  · cases call <;> grind [acmeFinalizeOrderHandler, Finalization.Fits]
  intro hissue hwait
  have hnew := hwait i
  have hrest : ∀ (j : Nat) other, j ≠ i → s.calls[j]? = some other → other.underWay = false :=
    fun j other hj hother => hwait j other (by simpa [List.getElem?_set_ne hj.symm] using hother)
  cases call <;> grind [acmeFinalizeOrderHandler, Finalization.underWay, Finalization.Fits]

/-- At most one certificate is stored for the order. -/
theorem order_yields_one_certificate {history : List (Nat × FinalizeInput)}
    (hs : ∀ call ∈ s.calls, call = .loadOrder) (hnone : s.store.certificates = [])
    (hrun : Orderly (turn acmeFinalizeOrderHandler) LoadsAlone s history) :
    (final (turn acmeFinalizeOrderHandler) s history).store.certificates.length ≤ 1 := by
  have hstart : Single s := by
    constructor
    · intro i j a b ha _ hpa
      simp [hs a (List.mem_of_getElem? ha), Finalization.underWay] at hpa
    · intro i call hi
      simp [hs call (List.mem_of_getElem? hi), Finalization.Fits]
    · simp [hnone]
    · simp [hnone]
  exact (hrun.keeps (fun _ _ h => h.turn) hstart).certificates

def twoFinalizations : Race OrderStore Finalization :=
  ⟨⟨⟨.ready, 9, [], none⟩, fun _ => .valid, [], []⟩, [.loadOrder, .loadOrder]⟩

def finalizeTurns (alternate : Bool) : List (Nat × FinalizeInput) :=
  (turns 5 alternate).mapIdx fun k e => (e.1, ⟨0, 0, none, k⟩)

theorem second_finalization_refused : (final (turn acmeFinalizeOrderHandler) twoFinalizations
    (finalizeTurns false)).store.certificates.length ≤ 1 :=
  order_yields_one_certificate (by decide) rfl (by decide)

theorem order_yields_two_certificates : (final (turn acmeFinalizeOrderHandler) twoFinalizations
    (finalizeTurns true)).store.certificates = [5, 4] := by
  decide

end VaultProofs.AcmeRaces
