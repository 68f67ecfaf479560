import VaultProofs.RequestRouting

/-!
What a call may do at most. A footprint bounds the entries written under `pending/`, the requests
dispatched and whether leases are registered; reads, deletions and writes elsewhere are free.
-/

namespace VaultProofs.EffectFootprints

open EffectPrograms ApprovalEntries VaultEffects ApprovalInterceptor RequestRouting

structure Footprint where
  writes : PendingRequest → Prop := fun _ => False
  routes : Request → Prop := fun _ => False
  leases : Prop := False

def Footprint.Allows (F : Footprint) : VaultOp → Prop
  | .storagePut key value => key.folder = .pending →
      ∃ r : PendingRequest, r.marshalJSON = some value ∧ key = pendingKey r.requestID ∧ F.writes r
  | .doRouting req => F.routes req
  | .registerLease _ _ => F.leases
  | _ => True

abbrev Within {α : Type} (F : Footprint) (p : VaultProg α) : Prop :=
  p.Performs F.Allows fun _ => True

abbrev RunsWithin {α : Type} (env : Env) (F : Footprint) (p : VaultProg α) (w : World) : Prop :=
  p.RunPerforms (exec env) F.Allows w

def Silent : VaultOp → Prop
  | .doRouting _ => False
  | _ => True

theorem exec_routed (env : Env) {op : VaultOp} (hop : Silent op) (w : World) :
    (exec env op w).2.routed = w.routed := by
  cases op with
  | storageGet key => rw [exec_storageGet_snd]; rfl
  | storagePut key value | storageDelete key | registerLease req resp =>
    simp only [exec]; split <;> rfl
  | storageList folder => rw [exec_storageList_snd]; rfl
  | timeNow | generateUUID => rfl
  | doRouting req => exact hop.elim

variable {α : Type} {env : Env} {F : Footprint} {p : VaultProg α} {w : World}

theorem Within.runs (hp : Within F p) : RunsWithin env F p w :=
  hp.runPerforms w

theorem Footprint.Allows.silent (hroutes : ∀ req, ¬ F.routes req) {op : VaultOp}
    (hop : F.Allows op) : Silent op := by
  cases op with
  | doRouting req => exact hroutes req hop
  | _ => trivial

theorem exec_leases (hleases : ¬ F.leases) (env : Env) (op : VaultOp) (w : World)
    (hop : F.Allows op) : (exec env op w).2.leases = w.leases := by
  cases op with
  | storageGet key => rw [exec_storageGet_snd]; rfl
  | storagePut key value | storageDelete key => simp only [exec]; split <;> rfl
  | storageList folder => rw [exec_storageList_snd]; rfl
  | timeNow | generateUUID | doRouting req => rfl
  | registerLease req resp => exact (hleases hop).elim

/-- What can have become of the entry of an ID: it is as before, gone, or written within the
footprint. -/
def Footprint.Outcome (F : Footprint) (id : String) (before after : Option PendingRequest) : Prop :=
  after = before ∨ after = none ∨
    ∃ r, F.writes r ∧ r.requestID = id ∧ after = some r.normalize

theorem exec_outcome (env : Env) (op : VaultOp) (w : World) (hop : F.Allows op) (id : String) :
    F.Outcome id (storedPending w.store id) (storedPending (exec env op w).2.store id) := by
  cases op with
  | storageGet key => rw [exec_storageGet_snd]; exact .inl rfl
  | storagePut key value =>
    simp only [exec]
    split
    · exact .inl rfl
    by_cases hkey : key = pendingKey id
    · obtain ⟨r, hvalue, hid, hr⟩ := hop (hkey ▸ rfl)
      obtain rfl : r.requestID = id := by
        rw [hkey] at hid
        cases hid
        rfl
      refine .inr (.inr ⟨r, hr, rfl, ?_⟩)
      rw [hkey]
      exact (storedPending_insert_self _ _ _).trans
        (PendingRequest.decodeJSON_marshalJSON hvalue)
    · exact .inl (storedPending_insert_of_ne _ _ _ hkey)
  | storageDelete key =>
    simp only [exec]
    split
    · exact .inl rfl
    by_cases hkey : key = pendingKey id
    · rw [hkey]
      exact .inr (.inl (storedPending_erase_self _ _))
    · exact .inl (storedPending_erase_of_ne _ _ hkey)
  | storageList folder => rw [exec_storageList_snd]; exact .inl rfl
  | timeNow | generateUUID | doRouting req => exact .inl rfl
  | registerLease req resp =>
    simp only [exec]
    split <;> exact .inl rfl

theorem Footprint.Outcome.trans {id : String} {first second third : Option PendingRequest}
    (h : F.Outcome id first second) (h' : F.Outcome id second third) :
    F.Outcome id first third := by
  rcases h' with rfl | hgone | hwritten
  · exact h
  · exact .inr (.inl hgone)
  · exact .inr (.inr hwritten)

theorem run_routed (hp : RunsWithin env F p w) (hroutes : ∀ req, ¬ F.routes req) :
    (p.run (exec env) w).2.routed = w.routed := by
  refine Prog.RunPerforms.run_keeps (K := fun w' => w'.routed = w.routed) ?_ hp rfl
  intro op w' hop hw'
  exact (exec_routed env (hop.silent hroutes) w').trans hw'

theorem run_leases (hp : RunsWithin env F p w) (hleases : ¬ F.leases) :
    (p.run (exec env) w).2.leases = w.leases := by
  refine Prog.RunPerforms.run_keeps (K := fun w' => w'.leases = w.leases) ?_ hp rfl
  intro op w' hop hw'
  exact (exec_leases hleases env op w' hop).trans hw'

theorem run_outcome (hp : RunsWithin env F p w) (id : String) :
    F.Outcome id (storedPending w.store id) (storedPending (p.run (exec env) w).2.store id) := by
  refine Prog.RunPerforms.run_keeps
    (K := fun w' => F.Outcome id (storedPending w.store id) (storedPending w'.store id))
    ?_ hp (.inl rfl)
  intro op w' hop hw'
  exact hw'.trans (exec_outcome env op w' hop id)

/-- The operations that change nothing and show only names of what is under `pending/`. -/
def Reading : VaultOp → Prop
  | .storageGet key => key.folder ≠ .pending
  | .storageList _ => True
  | .timeNow => True
  | _ => False

abbrev ReadsOnly {α : Type} (p : VaultProg α) : Prop :=
  p.Performs Reading fun _ => True

def Outside : VaultOp → Prop
  | .storagePut key _ => key.folder ≠ .pending
  | .storageDelete key => key.folder ≠ .pending
  | op => Reading op

abbrev StaysOutside {α : Type} (p : VaultProg α) : Prop :=
  p.Performs Outside fun _ => True

theorem StaysOutside.within (hp : StaysOutside p) : Within F p := by
  refine hp.mono ?_ fun _ h => h
  intro op hop
  cases op with
  | storagePut key value => exact fun hkey => (hop hkey).elim
  | doRouting req | registerLease req resp => exact hop.elim
  | _ => trivial

theorem ReadsOnly.outside (hp : ReadsOnly p) : StaysOutside p := by
  refine hp.mono ?_ fun _ h => h
  intro op hop
  cases op with
  | storagePut key value | storageDelete key => exact hop.elim
  | _ => exact hop

theorem ReadsOnly.within (hp : ReadsOnly p) : Within F p :=
  hp.outside.within

def KeepsStore : VaultOp → Prop
  | .storagePut _ _ => False
  | .storageDelete _ => False
  | _ => True

theorem run_store {post : α → Prop} (hp : p.Performs KeepsStore post) (env : Env) (w : World) :
    (p.run (exec env) w).2.store = w.store := by
  refine Prog.RunPerforms.run_keeps (K := fun w' => w'.store = w.store) ?_
    (hp.runPerforms w) rfl
  intro op w' hop hw'
  cases op with
  | storageGet key => rw [exec_storageGet_snd]; exact hw'
  | storageList folder => rw [exec_storageList_snd]; exact hw'
  | storagePut key value | storageDelete key => exact hop.elim
  | timeNow | generateUUID | doRouting req => exact hw'
  | registerLease req resp => simp only [exec]; split <;> exact hw'

theorem ReadsOnly.run_store (hp : ReadsOnly p) (env : Env) (w : World) :
    (p.run (exec env) w).2.store = w.store := by
  refine EffectFootprints.run_store (hp.mono ?_ fun _ h => h) env w
  intro op hop
  cases op with
  | storagePut key value | storageDelete key => exact hop.elim
  | _ => trivial

theorem getApprovalRule_reads (ruleID : String) : ReadsOnly (getApprovalRule ruleID) :=
  ⟨nofun, fun _ => trivial⟩

theorem getPendingRequest_within (id : String) : Within F (getPendingRequest id) :=
  ⟨trivial, fun _ => trivial⟩

theorem storePendingRequest_within {r : PendingRequest} (hr : F.writes r) :
    Within F (storePendingRequest r) := by
  unfold storePendingRequest
  split
  · trivial
  · rename_i value hvalue
    exact ⟨fun _ => ⟨r, hvalue, rfl, hr⟩, fun _ => trivial⟩

theorem storeHistoryEntry_outside (h : ApprovalHistoryEntry) : StaysOutside (storeHistoryEntry h) :=
  ⟨nofun, fun _ => trivial⟩

variable (core : Core) (req : Request) (rule : ApprovalRule)

theorem putApprovalRule_outside : StaysOutside (putApprovalRule rule) :=
  ⟨nofun, fun _ => trivial⟩

/-! The interceptor -/

def Parked (req : Request) (r : PendingRequest) : Prop :=
  ∃ rule id now, r = parkedRequest req rule id now

def parking (req : Request) : Footprint where
  writes := Parked req

def Interception.Stops (check : Interception) : Prop :=
  (check.intercepted || check.reply.err.isSome) = true

instance (check : Interception) : Decidable (Interception.Stops check) :=
  inferInstanceAs (Decidable (_ = true))

theorem parkRequest_stops :
    (parkRequest req rule).Performs (parking req).Allows Interception.Stops := by
  refine Prog.performs_perform trivial fun answer => ?_
  cases answer with
  | error e => exact rfl
  | ok id =>
    refine Prog.performs_perform trivial fun now => ?_
    refine Prog.performs_bind (storePendingRequest_within ⟨rule, id, now, rfl⟩) fun stored _ => ?_
    cases stored with
    | error e | ok done => exact rfl

theorem scanActiveRequests_within (keys : List String) :
    Within F (scanActiveRequests core req keys) := by
  induction keys with
  | nil => trivial
  | cons key rest ih =>
    refine Prog.performs_bind (getPendingRequest_within key) fun found _ => ?_
    split
    · split
      · exact ih
      split
      · refine Prog.performs_perform trivial fun now => ?_
        split
        · trivial
        · exact Prog.performs_perform trivial fun _ => ih
      · refine Prog.performs_perform trivial fun now => ?_
        split
        · trivial
        · exact Prog.performs_perform trivial fun _ => ih
      · exact ih
    · exact ih

theorem checkActiveApprovalRequest_within : Within F (checkActiveApprovalRequest core req) := by
  refine Prog.performs_perform trivial fun listed => ?_
  cases listed with
  | error e => trivial
  | ok keys => exact scanActiveRequests_within core req keys

theorem parkUnlessActive_stops :
    (parkUnlessActive core req rule).Performs (parking req).Allows Interception.Stops := by
  unfold parkUnlessActive
  split
  · refine Prog.performs_bind (checkActiveApprovalRequest_within core req) fun found _ => ?_
    cases found with
    | some block => exact rfl
    | none => exact parkRequest_stops req rule
  · exact parkRequest_stops req rule

theorem findMatchingRule_reads (path : GoStrings.GoString) (keys : List String) :
    ReadsOnly (findMatchingRule path keys) := by
  induction keys with
  | nil => trivial
  | cons key rest ih =>
    refine Prog.performs_bind (getApprovalRule_reads key) fun found _ => ?_
    split
    · split
      · trivial
      · exact ih
    · exact ih

theorem checkNeedsApproval_recover (auth : Option (List String)) {req : Request}
    (hreq : req.operation = .recover) : checkNeedsApproval core req auth = .ret {} := by
  unfold checkNeedsApproval
  rw [hreq]
  split <;> rfl

section Parking

variable {req : Request}
  (hwrites : ∀ rule id, env.uuid = .ok id → F.writes (parkedRequest req rule id env.now))

include hwrites

theorem parkRequest_runsWithin (rule : ApprovalRule) (w : World) :
    RunsWithin env F (parkRequest req rule) w := by
  refine Prog.runPerforms_bind.mpr ⟨⟨trivial, trivial⟩, ?_⟩
  rw [run_generateUUID]
  cases huuid : env.uuid with
  | error e => trivial
  | ok id =>
    refine Prog.runPerforms_bind.mpr ⟨⟨trivial, trivial⟩, ?_⟩
    have hstore : Within F (storePendingRequest (parkedRequest req rule id env.now)) :=
      storePendingRequest_within (hwrites rule id huuid)
    refine Prog.runPerforms_bind.mpr ⟨hstore.runs, ?_⟩
    split <;> trivial

theorem checkNeedsApproval_runsWithin (auth : Option (List String)) (w : World) :
    RunsWithin env F (checkNeedsApproval core req auth) w := by
  unfold checkNeedsApproval
  split
  · trivial
  split
  · trivial
  split
  · trivial
  refine Prog.runPerforms_bind.mpr ⟨⟨trivial, trivial⟩, ?_⟩
  split
  · trivial
  have hfind := findMatchingRule_reads req.path
  refine Prog.runPerforms_bind.mpr ⟨(hfind _).within.runs, ?_⟩
  split
  · trivial
  unfold parkUnlessActive
  split
  · have hscan : Within F (checkActiveApprovalRequest core req) :=
      checkActiveApprovalRequest_within core req
    refine Prog.runPerforms_bind.mpr ⟨hscan.runs, ?_⟩
    split
    · trivial
    · exact parkRequest_runsWithin hwrites _ _
  · exact parkRequest_runsWithin hwrites _ _

end Parking

theorem checkNeedsApproval_parks (auth : Option (List String)) :
    RunsWithin env (parking req) (checkNeedsApproval core req auth) w := by
  apply checkNeedsApproval_runsWithin
  exact fun rule id _ => ⟨rule, id, env.now, rfl⟩

/-! Routing -/

def leasing : Footprint where
  leases := True

section Settle

variable {ok : VaultOp → Prop} (hnow : ok .timeNow)
  (hlease : ∀ req resp, ok (.registerLease req resp))

include hnow hlease

theorem registerSecret_performs (core : Core) (req : Request) (resp : Response) (secret : Secret)
    (routeErr : Option GoError) :
    (registerSecret core req resp secret routeErr).Performs ok fun _ => True := by
  unfold registerSecret
  split
  · trivial
  split
  · trivial
  split
  · trivial
  refine Prog.performs_perform hnow fun now => ?_
  split
  · trivial
  refine Prog.performs_perform (hlease _ _) fun registered => ?_
  cases registered with
  | error e | ok leaseID => trivial

theorem settleResponse_performs (core : Core) (req : Request) (reply : Reply) :
    (settleResponse core req reply).Performs ok fun _ => True := by
  unfold settleResponse
  split
  · trivial
  split
  · trivial
  split
  · trivial
  · split
    · trivial
    · trivial
    · exact registerSecret_performs hnow hlease core req _ _ _

end Settle

theorem settleResponse_within (reply : Reply) : Within leasing (settleResponse core req reply) :=
  settleResponse_performs trivial (fun _ _ => trivial) core req reply

theorem routeRequest_store (env : Env) (req : Request) (w : World) :
    ((routeRequest core req).run (exec env) w).2.store = w.store := by
  have hperforms : (routeRequest core req).Performs KeepsStore fun _ => True := by
    refine Prog.performs_perform trivial fun reply => ?_
    exact settleResponse_performs trivial (fun _ _ => trivial) core req reply
  exact run_store hperforms env w

def requesting (req : Request) : Footprint where
  writes r := ∃ data, Parked { req with data := data } r
  routes _ := True
  leases := True

section Requests

variable {req : Request} (hroutes : ∀ req, F.routes req) (hleases : F.leases)

include hroutes hleases

theorem interceptOrRoute_runsWithin
    (hwrites : req.operation ≠ .recover →
      ∀ rule id, env.uuid = .ok id → F.writes (parkedRequest req rule id env.now))
    (bypass : Bool) (auth : Option (List String)) (w : World) :
    RunsWithin env F (interceptOrRoute core bypass auth req) w := by
  have hroute : Within F (routeRequest core req) := by
    refine Prog.performs_perform (hroutes req) fun reply => ?_
    exact settleResponse_performs trivial (fun _ _ => hleases) core req reply
  have hcheck : RunsWithin env F (checkNeedsApproval core req auth) w := by
    by_cases hrecover : req.operation = .recover
    · rw [checkNeedsApproval_recover core auth hrecover]
      trivial
    · exact checkNeedsApproval_runsWithin core (hwrites hrecover) auth w
  unfold interceptOrRoute
  split
  · exact hroute.runs
  refine Prog.runPerforms_bind.mpr ⟨hcheck, ?_⟩
  split
  · trivial
  · exact hroute.runs

theorem handleRequest_runsWithin
    (hwrites : ∀ rule id, env.uuid = .ok id → F.writes (parkedRequest req rule id env.now))
    (bypass : Bool) (auth : Option (List String)) (w : World) :
    RunsWithin env F (handleRequest core bypass auth req) w := by
  unfold handleRequest
  split
  · rename_i hrecover
    refine Prog.runPerforms_bind.mpr ⟨⟨hroutes _, trivial⟩, ?_⟩
    split
    · trivial
    · trivial
    split
    · trivial
    · apply interceptOrRoute_runsWithin core hroutes hleases
      exact fun hne => (hne hrecover).elim
  · exact interceptOrRoute_runsWithin core hroutes hleases (fun _ => hwrites) bypass auth w

end Requests

end VaultProofs.EffectFootprints
