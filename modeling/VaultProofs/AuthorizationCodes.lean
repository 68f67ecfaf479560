import Mathlib.Logic.Function.Basic
import VaultProofs.EffectPrograms
import VaultProofs.GoStrings
import VaultProofs.RunHistories

/-!
Authorization codes of an OIDC provider: a code is cached when it is issued, looked up at the start
of a token exchange and deleted at its end.
-/

namespace VaultProofs.AuthorizationCodes

open GoStrings RunHistories
open EffectPrograms (bind_eq_ok)

inductive ClientType where
  | confidentialClient
  | publicClient
  deriving DecidableEq

structure Client where
  redirectURIs : List GoString
  assignments : List GoString
  key : GoString
  type : ClientType
  clientSecret : GoString

structure Provider where
  allowedClientIDs : List GoString
  scopesSupported : List GoString

structure NamedKey where
  allowedClientIDs : List GoString

structure AuthCodeEntry where
  provider : GoString
  clientID : GoString
  entityID : GoString
  redirectURI : GoString
  nonce : GoString
  scopes : List GoString
  authTime : Option Int
  codeChallenge : GoString
  codeChallengeMethod : GoString

inductive ErrorCode where
  | invalidClientID
  | invalidRequest
  | invalidRedirectURI
  | accessDenied
  | unauthorizedClient
  | serverError
  | requestNotSupported
  | requestURINotSupported
  | unsupportedResponseType
  | maxAgeReAuthenticate
  | invalidClient
  | invalidGrant
  | unsupportedGrantType

structure Failure where
  code : ErrorCode
  description : GoString

/-- What the endpoints ask the rest of the server; an answer may be an error text. -/
structure Services where
  getOIDCProvider : GoString → Except GoString (Option Provider)
  clientByID : GoString → Except GoString (Option Client)
  getNamedKey : GoString → Except GoString (Option NamedKey)
  memDBEntityByID : GoString → Except GoString (Option GoString)
  entityHasAssignment : GoString → List GoString → Except GoString Bool
  validRedirect : GoString → List GoString → Bool
  lookupToken : Except GoString (Option Int)
  now : Int
  issueTokens : AuthCodeEntry → Except Failure GoString

structure AuthorizeRequest where
  name : GoString
  clientID : GoString
  redirectURI : GoString
  request : Bool
  requestURI : Bool
  scopes : List GoString
  responseType : GoString
  entityID : GoString
  nonce : GoString
  codeChallenge : Option GoString
  codeChallengeMethod : GoString
  maxAge : Option Int

def require (holds : Bool) (code : ErrorCode) (description : String) : Except Failure Unit :=
  if holds then .ok () else .error ⟨code, ofString description⟩

def found {α : Type} (answer : Except GoString (Option α)) (code : ErrorCode)
    (description : String) : Except Failure α :=
  match answer with
  | .error text => .error ⟨.serverError, text⟩
  | .ok none => .error ⟨code, ofString description⟩
  | .ok (some value) => .ok value

def holds (answer : Except GoString Bool) (code : ErrorCode) (description : String) :
    Except Failure Unit :=
  match answer with
  | .error text => .error ⟨.serverError, text⟩
  | .ok value => require value code description

def star : GoString := [42]

def openid : GoString := ofString "openid"

def plain : GoString := ofString "plain"

def sha256 : GoString := ofString "S256"

def allowedClientID (allowedClientIDs : List GoString) (clientID : GoString) : Bool :=
  star ∈ allowedClientIDs ∨ clientID ∈ allowedClientIDs

def challengeOf (client : Client) (req : AuthorizeRequest) : Except Failure (GoString × GoString) :=
  match req.codeChallenge with
  | none => do
      require (client.type ≠ .publicClient) .invalidRequest "PKCE is required for public clients"
      return ([], [])
  | some challenge => do
      let method := req.codeChallengeMethod
      require (method ∈ [plain, sha256, []]) .invalidRequest "invalid code_challenge_method"
      require (43 ≤ challenge.length ∧ challenge.length ≤ 128) .invalidRequest
        "invalid code_challenge"
      return (challenge, if method = [] then plain else method)

def authTimeOf (s : Services) (req : AuthorizeRequest) : Except Failure (Option Int) :=
  match req.maxAge with
  | none => .ok none
  | some maxAge => do
      require (1 ≤ maxAge) .invalidRequest "max_age must be greater than zero"
      let created ← found s.lookupToken .accessDenied "token associated with request not found"
      require (s.now - created ≤ maxAge) .maxAgeReAuthenticate
        "active re-authentication is required by max_age"
      return some created

def pathOIDCAuthorize (s : Services) (req : AuthorizeRequest) : Except Failure AuthCodeEntry := do
  require (req.clientID ≠ []) .invalidClientID "client_id parameter is required"
  let client ← found (s.clientByID req.clientID) .invalidClientID
    "client with client_id not found"
  require (req.redirectURI ≠ []) .invalidRequest "redirect_uri parameter is required"
  require (s.validRedirect req.redirectURI client.redirectURIs) .invalidRedirectURI
    "redirect_uri is not allowed for the client"
  let provider ← found (s.getOIDCProvider req.name) .invalidRequest "provider not found"
  require (allowedClientID provider.allowedClientIDs req.clientID) .unauthorizedClient
    "client is not authorized to use the provider"
  require (!req.request) .requestNotSupported "request parameter is not supported"
  require (!req.requestURI) .requestURINotSupported "request_uri parameter is not supported"
  require (openid ∈ req.scopes) .invalidRequest
    "scope parameter must contain the \"openid\" value"
  require (req.responseType ≠ []) .invalidRequest "response_type parameter is required"
  require (req.responseType = ofString "code") .unsupportedResponseType
    "unsupported response_type value"
  require (req.entityID ≠ []) .accessDenied "identity entity must be associated with the request"
  let entityID ← found (s.memDBEntityByID req.entityID) .accessDenied
    "identity entity associated with the request not found"
  holds (s.entityHasAssignment entityID client.assignments) .accessDenied
    "identity entity not authorized by client assignment"
  let (codeChallenge, codeChallengeMethod) ← challengeOf client req
  let authTime ← authTimeOf s req
  return {
    provider := req.name
    clientID := req.clientID
    entityID
    redirectURI := req.redirectURI
    nonce := req.nonce
    scopes := req.scopes.filter fun scope => scope ∈ provider.scopesSupported ∧ scope ≠ openid
    authTime
    codeChallenge
    codeChallengeMethod }

structure TokenRequest where
  name : GoString
  basicAuth : Option (GoString × GoString)
  clientID : GoString
  clientSecret : GoString
  grantType : GoString
  code : GoString
  redirectURI : GoString
  codeVerifier : GoString

/-- A call of the token endpoint: the request, and the answers it meets. -/
structure Call where
  services : Services
  request : TokenRequest

def Call.clientID (c : Call) : GoString :=
  (c.request.basicAuth.map Prod.fst).getD c.request.clientID

/-- The part of a token exchange before the code is looked up. -/
def authenticate (c : Call) : Except Failure Client := do
  let req := c.request
  let provider ← found (c.services.getOIDCProvider req.name) .invalidRequest "provider not found"
  require (req.basicAuth.isSome ∨ req.clientID ≠ []) .invalidRequest
    "client_id parameter is required"
  let client ← found (c.services.clientByID c.clientID) .invalidClient
    "client failed to authenticate"
  let secret := (req.basicAuth.map Prod.snd).getD req.clientSecret
  require (client.type = .publicClient ∨ client.clientSecret = secret) .invalidClient
    "client failed to authenticate"
  require (allowedClientID provider.allowedClientIDs c.clientID) .invalidClient
    "client is not authorized to use the provider"
  let key ← found (c.services.getNamedKey client.key) .serverError "client key not found"
  require (allowedClientID key.allowedClientIDs c.clientID) .invalidClient
    "client is not authorized to use the key"
  require (req.grantType ≠ []) .invalidRequest "grant_type parameter is required"
  require (req.grantType = ofString "authorization_code") .unsupportedGrantType
    "unsupported grant_type value"
  require (req.code ≠ []) .invalidRequest "code parameter is required"
  return client

section Exchange

variable (s256 : GoString → GoString)

def computeCodeChallenge (verifier method : GoString) : Except GoString GoString :=
  if method = plain then .ok verifier
  else if method = sha256 then .ok (s256 verifier)
  else .error (ofString "invalid code challenge method")

def verifyCode (client : Client) (entry : AuthCodeEntry) (verifier : GoString) :
    Except Failure Unit :=
  if entry.codeChallenge = [] ∨ entry.codeChallengeMethod = [] then do
    require (client.type ≠ .publicClient) .invalidRequest "PKCE is required for public clients"
    require (verifier = []) .invalidRequest "unexpected code_verifier for token exchange"
  else do
    require (verifier ≠ []) .invalidRequest "expected code_verifier for token exchange"
    match computeCodeChallenge s256 verifier entry.codeChallengeMethod with
    | .error text => .error ⟨.serverError, text⟩
    | .ok challenge =>
      require (challenge = entry.codeChallenge) .invalidGrant
        "invalid code_verifier for token exchange"

def pathOIDCToken (c : Call) (cached : Option AuthCodeEntry) : Except Failure GoString := do
  let client ← authenticate c
  let entry ← found (.ok cached) .invalidGrant "authorization grant is invalid or expired"
  require (entry.clientID = c.clientID) .invalidGrant
    "authorization code was not issued to the client"
  require (entry.provider = c.request.name) .invalidGrant
    "authorization code was not issued by the provider"
  require (c.request.redirectURI ≠ []) .invalidRequest "redirect_uri parameter is required"
  require (entry.redirectURI = c.request.redirectURI) .invalidGrant
    "redirect_uri does not match the redirect_uri used in the authorization request"
  let entityID ← found (c.services.memDBEntityByID entry.entityID) .invalidRequest
    "identity entity associated with the request not found"
  holds (c.services.entityHasAssignment entityID client.assignments) .invalidRequest
    "identity entity not authorized by client assignment"
  verifyCode s256 client entry c.request.codeVerifier
  c.services.issueTokens entry

/-- What happens to a cached code: a call looks it up, or deletes it when it returns. -/
inductive Event where
  | lookup (i : Nat)
  | delete (i : Nat)
  | expire
  deriving DecidableEq

def step (cached : Option AuthCodeEntry) : Event → Option AuthCodeEntry
  | .lookup _ => cached
  | .delete _ => none
  | .expire => none

def Returns (calls : Nat → Call) (entry : AuthCodeEntry) (history : List Event) (i : Nat) : Prop :=
  ∃ before tokens, Occurs before (.lookup i) history ∧
    pathOIDCToken s256 (calls i) (final step (some entry) before) = .ok tokens

/-- The call has the client, the provider and the redirect URI of the authorization, and the
verifier of its challenge. -/
structure Bound (req : AuthorizeRequest) (c : Call) : Prop where
  client : c.clientID = req.clientID
  provider : c.request.name = req.name
  redirectURI : c.request.redirectURI = req.redirectURI
  unchallenged : req.codeChallenge = none → c.request.codeVerifier = []
  challenged : ∀ challenge, req.codeChallenge = some challenge →
    computeCodeChallenge s256 c.request.codeVerifier
      (if req.codeChallengeMethod = [] then plain else req.codeChallengeMethod) = .ok challenge

/-- The calls that have looked the code up have deleted it when another does. -/
def Alone (before : List Event) : Event → Prop
  | .lookup _ => ∀ j, .lookup j ∈ before → .delete j ∈ before
  | _ => True

section Checks

variable {s256} {s : Services} {req : AuthorizeRequest} {entry : AuthCodeEntry} {c : Call}

theorem require_eq_ok {p : Bool} {code : ErrorCode} {description : String} {u : Unit} :
    require p code description = .ok u ↔ p = true := by
  cases p with
  | true => exact iff_of_true rfl rfl
  | false => exact iff_of_false (by simp [require]) (by simp)

theorem entry_of_authorize (h : pathOIDCAuthorize s req = .ok entry) :
    entry.clientID = req.clientID ∧ entry.provider = req.name ∧
      entry.redirectURI = req.redirectURI ∧
      ∃ client, challengeOf client req = .ok (entry.codeChallenge, entry.codeChallengeMethod) := by
  simp only [pathOIDCAuthorize, bind_eq_ok] at h
  obtain ⟨_, _, client, _, _, _, _, _, provider, _, _, _, _, _, _, _, _, _, _, _, _, _, _, _,
    entityID, _, _, _, challenge, hchallenge, authTime, _, h⟩ := h
  cases h
  exact ⟨rfl, rfl, rfl, client, hchallenge⟩

theorem challengeOf_eq_ok {client : Client} {challenge method : GoString}
    (h : challengeOf client req = .ok (challenge, method)) :
    req.codeChallenge = none ∧ challenge = [] ∨
      req.codeChallenge = some challenge ∧ challenge ≠ [] ∧ method ≠ [] ∧
        method = if req.codeChallengeMethod = [] then plain else req.codeChallengeMethod := by
  rw [challengeOf] at h
  cases hreq : req.codeChallenge with
  | none =>
    simp only [hreq, bind_eq_ok] at h
    obtain ⟨-, -, h⟩ := h
    cases h
    exact .inl ⟨rfl, rfl⟩
  | some given =>
    simp only [hreq, bind_eq_ok, require_eq_ok] at h
    obtain ⟨-, -, -, hlength, h⟩ := h
    cases h
    refine .inr ⟨rfl, ?_, ?_, rfl⟩
    · rintro rfl
      exact absurd hlength (by decide)
    · split
      · decide
      · assumption

theorem fits_of_token {cached : Option AuthCodeEntry} {tokens : GoString}
    (h : pathOIDCToken s256 c cached = .ok tokens) : ∃ entry client, cached = some entry ∧
      entry.clientID = c.clientID ∧ entry.provider = c.request.name ∧
      entry.redirectURI = c.request.redirectURI ∧
      verifyCode s256 client entry c.request.codeVerifier = .ok () := by
  simp only [pathOIDCToken, bind_eq_ok, require_eq_ok, decide_eq_true_iff] at h
  obtain ⟨client, _, entry, hentry, _, hclient, _, hprovider, _, _, _, hredirect, _, _, _, _, _,
    hverify, _⟩ := h
  cases cached with
  | none => cases hentry
  | some cached =>
    cases hentry
    exact ⟨entry, client, rfl, hclient, hprovider, hredirect, hverify⟩

theorem bound_of_token {tokens : GoString} (hissued : pathOIDCAuthorize s req = .ok entry)
    (h : pathOIDCToken s256 c (some entry) = .ok tokens) : Bound s256 req c := by
  obtain ⟨hclient, hprovider, hredirect, client', hchallenge⟩ := entry_of_authorize hissued
  obtain ⟨_, client, heq, hclient', hprovider', hredirect', hverify⟩ := fits_of_token h
  cases heq
  have hclients := hclient'.symm.trans hclient
  have hproviders := hprovider'.symm.trans hprovider
  have hredirects := hredirect'.symm.trans hredirect
  rcases challengeOf_eq_ok hchallenge with ⟨hnone, hempty⟩ | ⟨hsome, hchallenged, hmethod, heq⟩
  · rw [verifyCode, if_pos (.inl hempty)] at hverify
    obtain ⟨_, _, hverifier⟩ := bind_eq_ok.mp hverify
    rw [require_eq_ok, decide_eq_true_iff] at hverifier
    exact ⟨hclients, hproviders, hredirects, fun _ => hverifier, by simp [hnone]⟩
  rw [verifyCode, if_neg (not_or.mpr ⟨hchallenged, hmethod⟩)] at hverify
  obtain ⟨_, _, hverify⟩ := bind_eq_ok.mp hverify
  refine ⟨hclients, hproviders, hredirects, by simp [hsome], fun challenge hreq => ?_⟩
  obtain rfl : entry.codeChallenge = challenge := Option.some.inj (hsome.symm.trans hreq)
  rw [← heq]
  cases hcompute : computeCodeChallenge s256 c.request.codeVerifier entry.codeChallengeMethod with
  | error text =>
    rw [hcompute] at hverify
    cases hverify
  | ok computed =>
    rw [hcompute, require_eq_ok, decide_eq_true_iff] at hverify
    rw [hverify]

end Checks

section Runs

variable {s256} {calls : Nat → Call} {entry : AuthCodeEntry} {before history : List Event}

theorem cached_of_final {e : AuthCodeEntry} (h : final step (some entry) before = some e) :
    e = entry ∧ ∀ j, .delete j ∉ before := by
  induction before using List.reverseRecOn generalizing e with
  | nil => exact ⟨(Option.some.inj h).symm, by simp⟩
  | append_singleton before event ih =>
    rw [final_concat] at h
    cases event with
    | lookup i =>
      obtain ⟨heq, hnone⟩ := ih h
      exact ⟨heq, fun j hj => hnone j (by simpa using hj)⟩
    | delete i | expire => cases h

theorem fresh_of_returns {i : Nat} (h : Returns s256 calls entry history i) :
    ∃ before tokens, Occurs before (.lookup i) history ∧ (∀ j, .delete j ∉ before) ∧
      pathOIDCToken s256 (calls i) (some entry) = .ok tokens := by
  obtain ⟨before, tokens, hoccurs, htokens⟩ := h
  obtain ⟨e, -, hcached, -⟩ := fits_of_token htokens
  obtain ⟨rfl, hnone⟩ := cached_of_final hcached
  exact ⟨before, tokens, hoccurs, hnone, hcached ▸ htokens⟩

/-- A code is redeemed by calls it was issued for, and by only one of them if they look it up one
after the other. -/
theorem code_redeemed_once {s : Services} {req : AuthorizeRequest}
    (hissued : pathOIDCAuthorize s req = .ok entry) (hhistory : Throughout Alone history) :
    (∀ i, Returns s256 calls entry history i → Bound s256 req (calls i)) ∧
      ∀ i j, Returns s256 calls entry history i → Returns s256 calls entry history j → i = j := by
  refine ⟨fun i hi => ?_, fun i j hi hj => ?_⟩
  · obtain ⟨_, _, -, -, htokens⟩ := fresh_of_returns hi
    exact bound_of_token hissued htokens
  obtain ⟨before, _, hi, hnone, -⟩ := fresh_of_returns hi
  obtain ⟨before', _, hj, hnone', -⟩ := fresh_of_returns hj
  by_contra hne
  -- the first of the two lookups is before the other one, and its deletion is too
  obtain ⟨later, hlater⟩ := hi
  obtain ⟨later', hlater'⟩ := hj
  rcases List.append_eq_append_iff.mp (hlater.symm.trans hlater') with
    ⟨between, rfl, hbetween⟩ | ⟨between, rfl, hbetween⟩
  · cases between with
    | nil => exact hne (Event.lookup.inj (List.cons.inj hbetween).1)
    | cons event between =>
      obtain rfl := (List.cons.inj hbetween).1
      exact hnone' i (hhistory _ _ ⟨later', hlater'⟩ i (by simp))
  cases between with
  | nil => exact hne (Event.lookup.inj (List.cons.inj hbetween).1).symm
  | cons event between =>
    obtain rfl := (List.cons.inj hbetween).1
    exact hnone j (hhistory _ _ ⟨later, hlater⟩ j (by simp))

end Runs

end Exchange

def sampleServices : Services where
  getOIDCProvider := fun _ => .ok (some ⟨[star], []⟩)
  clientByID := fun _ => .ok (some ⟨[], [], [], .confidentialClient, [9]⟩)
  getNamedKey := fun _ => .ok (some ⟨[star]⟩)
  memDBEntityByID := fun id => .ok (some id)
  entityHasAssignment := fun _ _ => .ok true
  validRedirect := fun _ _ => true
  lookupToken := .ok none
  now := 0
  issueTokens := fun _ => .ok (ofString "tokens")

def sampleAuthorization : AuthorizeRequest :=
  ⟨[1], [2], [3], false, false, [openid], ofString "code", [4], [], none, [], none⟩

def sampleEntry : AuthCodeEntry :=
  ⟨[1], [2], [4], [3], [], [], none, [], []⟩

def sampleCall : Call :=
  ⟨sampleServices, [1], none, [2], [9], ofString "authorization_code", [5], [3], []⟩

theorem overlapping_calls_redeem_twice :
    pathOIDCAuthorize sampleServices sampleAuthorization = .ok sampleEntry ∧
      Returns id (fun _ => sampleCall) sampleEntry
        [.lookup 0, .lookup 1, .delete 0, .delete 1] 0 ∧
      Returns id (fun _ => sampleCall) sampleEntry
        [.lookup 0, .lookup 1, .delete 0, .delete 1] 1 :=
  ⟨rfl, ⟨[], _, ⟨_, rfl⟩, rfl⟩, ⟨[.lookup 0], _, ⟨_, rfl⟩, rfl⟩⟩

theorem serial_calls_redeem_once :
    Returns id (fun _ => sampleCall) sampleEntry
        [.lookup 0, .delete 0, .lookup 1, .delete 1] 0 ∧
      ¬ Returns id (fun _ => sampleCall) sampleEntry
        [.lookup 0, .delete 0, .lookup 1, .delete 1] 1 := by
  have hfirst : Returns id (fun _ => sampleCall) sampleEntry
      [.lookup 0, .delete 0, .lookup 1, .delete 1] 0 := ⟨[], _, ⟨_, rfl⟩, rfl⟩
  have hlookup : Throughout Alone [.lookup 0] := throughout_nil.concat (by simp [Alone])
  have hdelete : Throughout Alone [.lookup 0, .delete 0] := hlookup.concat trivial
  have hagain : Throughout Alone [.lookup 0, .delete 0, .lookup 1] :=
    hdelete.concat (by simp [Alone])
  have hserial : Throughout Alone [.lookup 0, .delete 0, .lookup 1, .delete 1] :=
    hagain.concat trivial
  have hissued : pathOIDCAuthorize sampleServices sampleAuthorization = .ok sampleEntry := rfl
  refine ⟨hfirst, fun hsecond => ?_⟩
  have heq := (code_redeemed_once hissued hserial).2 0 1 hfirst hsecond
  cases heq

end VaultProofs.AuthorizationCodes
