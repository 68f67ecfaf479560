import VaultProofs.EntryWrites

/-!
The request that an approval executes against the intercepted one. Votes, denials, fetches and
roll-backs keep what was parked; JSON replaces text that is not UTF-8.
-/

namespace VaultProofs.ExecutedRequests

open GoStrings JsonValues ApprovalEntries VaultEffects ApprovalInterceptor ApprovalHandlers
open ApprovalExecution ApprovalRuns EntryWrites

/-- The executed request is the intercepted one, without the blocked headers and up to
the representation of numbers. -/
structure Faithful (req executed : Request) : Prop where
  path : executed.path = req.path
  operation : executed.operation = req.operation
  entityID : executed.entityID = req.entityID
  displayName : executed.displayName = req.displayName
  data : executed.data.map eraseKindsEntries = req.data.map eraseKindsEntries
  headers : executed.headers = safeHeaders req.headers

/-- All text of the request that is parked is well-formed UTF-8. -/
structure TextRequest (req : Request) : Prop where
  path : ValidUTF8 req.path
  displayName : ValidUTF8 req.displayName
  data : ∀ data, req.data = some data → validTextEntries data
  headers : ∀ header ∈ safeHeaders req.headers,
    ValidUTF8 header.1 ∧ ∀ value ∈ header.2, ValidUTF8 value

theorem map_coerced_eq_iff (texts : List GoString) :
    texts.map coerced = texts ↔ ∀ text ∈ texts, ValidUTF8 text := by
  have hmap : texts.map coerced = texts ↔ texts.map coerced = texts.map id := by
    rw [List.map_id]
  rw [hmap, List.map_inj_left]
  rfl

theorem map_header_eq_iff (headers : List (GoString × List GoString)) :
    headers.map (fun header => (coerced header.1, header.2.map coerced)) = headers ↔
      ∀ header ∈ headers, ValidUTF8 header.1 ∧ ∀ value ∈ header.2, ValidUTF8 value := by
  have hmap : headers.map (fun header => (coerced header.1, header.2.map coerced)) = headers ↔
      headers.map (fun header => (coerced header.1, header.2.map coerced)) = headers.map id := by
    rw [List.map_id]
  rw [hmap, List.map_inj_left]
  refine forall₂_congr fun header _ => ?_
  rw [id, Prod.ext_iff, map_coerced_eq_iff]
  rfl

theorem map_normalizeEntries_eq_iff (data : Option GoMap) :
    (data.map normalizeEntries).map eraseKindsEntries = data.map eraseKindsEntries ↔
      ∀ entries, data = some entries → validTextEntries entries := by
  cases data with
  | none => simp
  | some entries =>
    simp [eraseKindsEntries_normalizeEntries, normalizeEntries_eq_eraseKindsEntries_iff]

theorem faithful_reconstructed_iff (req : Request) (rule : ApprovalRule) (id execID : String)
    (now : Time) :
    Faithful req (reconstructedRequest (parkedRequest req rule id now).normalize execID) ↔
      TextRequest req := by
  constructor
  · intro h
    exact ⟨h.path, h.displayName, (map_normalizeEntries_eq_iff _).mp h.data,
      (map_header_eq_iff _).mp h.headers⟩
  · intro h
    exact ⟨h.path, rfl, rfl, h.displayName, (map_normalizeEntries_eq_iff _).mpr h.data,
      (map_header_eq_iff _).mpr h.headers⟩

/-- The entry under the ID, if there is one, is a state of the parked request. -/
def ParkedAs (parked : PendingRequest) (store : Store) (id : String) : Prop :=
  ∀ q, storedPending store id = some q → q.parked = parked.normalize

def Elsewhere (id : String) (s : Step) : Prop :=
  ∀ bypass auth req, s.call = .request bypass auth req → s.env.uuid ≠ .ok id

variable {parked : PendingRequest} {id : String}

theorem parkedAs_apply {s : Step} {w : World} (hkeyed : Keyed w.store)
    (hnormal : Normalized w.store) (hs : Elsewhere id s) (h : ParkedAs parked w.store id) :
    ParkedAs parked (s.apply w).store id := by
  intro q hq
  rcases parked_change s hkeyed hnormal hq with ⟨p, hp, hsame⟩ |
    ⟨bypass, auth, req, _, hcall, huuid, _⟩
  · exact hsame.trans (h p hp)
  · exact (hs bypass auth req hcall huuid).elim

theorem parkedAs_finalWorld (before later : List Step) (hlater : ∀ s ∈ later, Elsewhere id s)
    (h : ParkedAs parked (finalWorld before).store id) :
    ParkedAs parked (finalWorld (before ++ later)).store id := by
  induction later using List.reverseRecOn with
  | nil => rwa [List.append_nil]
  | append_singleton later s ih =>
    have hs : s ∈ later ++ [s] := List.mem_append_right _ (List.mem_singleton_self s)
    rw [← List.append_assoc, finalWorld_concat]
    refine parkedAs_apply (keyed_finalWorld _) (normalized_finalWorld _) (hlater s hs) (ih ?_)
    exact fun s' hs' => hlater s' (List.mem_append_left _ hs')

theorem parked_of_request {s : Step} {bypass : Bool} {auth : Option (List String)}
    {req : Request} (hcall : s.call = .request bypass auth req) {w : World}
    (hkeyed : Keyed w.store) (hnormal : Normalized w.store)
    (hfree : storedPending w.store id = none) {q : PendingRequest}
    (hq : storedPending (s.apply w).store id = some q) :
    ∃ rule, q = (parkedRequest req rule id s.env.now).normalize := by
  rcases parked_change s hkeyed hnormal hq with ⟨p, hp, -⟩ |
    ⟨_, _, _, rule, hcall', -, hentry⟩
  · rw [hfree] at hp
    cases hp
  · rw [hcall] at hcall'
    cases hcall'
    exact ⟨rule, hentry⟩

/-- A request is parked under a free ID, calls follow that do not park under it, and an approve call
dispatches: it dispatches the intercepted request iff its text is well formed. -/
theorem faithful_iff_textRequest (before between : List Step) (s approval : Step)
    {bypass : Bool} {auth : Option (List String)} {req voter executed : Request} {id : String}
    {reply : Reply} (hcall : s.call = .request bypass auth req)
    (hfree : storedPending (finalWorld before).store id = none)
    (hparked : (storedPending (finalWorld (before ++ [s])).store id).isSome = true)
    (hbetween : ∀ t ∈ between, Elsewhere id t) (hvote : approval.call = .approve voter id)
    (hrouted : (finalWorld (before ++ [s] ++ between ++ [approval])).routed =
      (finalWorld (before ++ [s] ++ between)).routed ++ [(executed, reply)]) :
    Faithful req executed ↔ TextRequest req := by
  obtain ⟨q, hq⟩ := Option.isSome_iff_exists.mp hparked
  rw [finalWorld_concat] at hq
  obtain ⟨rule, rfl⟩ := parked_of_request hcall (keyed_finalWorld before)
    (normalized_finalWorld before) hfree hq
  have hstart : ParkedAs (parkedRequest req rule id s.env.now)
      (finalWorld (before ++ [s])).store id := by
    intro q' hq'
    rw [finalWorld_concat, hq] at hq'
    cases hq'
    rfl
  have hend := parkedAs_finalWorld (before ++ [s]) between hbetween hstart
  obtain ⟨dispatched, hdispatched, hall⟩ :=
    routed_of_approve hvote (finalWorld (before ++ [s] ++ between))
  rw [← finalWorld_concat, hrouted, List.append_cancel_left_eq] at hdispatched
  obtain ⟨p, rule', execID, hadmitted, -, hexecuted, -⟩ :=
    hall (executed, reply) (by simp [← hdispatched])
  have hrebuilt := congrArg (reconstructedRequest · execID) (hend p hadmitted.entry)
  rw [show executed = _ from hexecuted.trans hrebuilt]
  exact faithful_reconstructed_iff req rule id execID s.env.now

/-- A byte of the path that is not UTF-8 is replaced: what was approved is executed on another path
than the requested one. -/
theorem not_faithful_invalidPath :
    ∃ executed reply,
      (finalWorld [ruleStep,
        requestStep { sampleRequest with path := ofString "database/creds/" ++ [0xff] },
        approveStep]).routed = [(executed, reply)] ∧
      executed.path = ofString "database/creds/\uFFFD" ∧
      ¬ Faithful { sampleRequest with path := ofString "database/creds/" ++ [0xff] } executed := by
  have hpaths : (finalWorld [ruleStep,
      requestStep { sampleRequest with path := ofString "database/creds/" ++ [0xff] },
      approveStep]).routed.map (fun routed => routed.1.path) =
        [ofString "database/creds/\uFFFD"] := by decide
  obtain ⟨⟨executed, reply⟩, hrouted, hpath⟩ := List.map_eq_singleton_iff.mp hpaths
  refine ⟨executed, reply, hrouted, hpath, fun hfaithful => ?_⟩
  have hsame := hpath.symm.trans hfaithful.path
  exact absurd hsame (by decide)

theorem faithful_iff_textRequest_sample :
    ∃ executed reply,
      (finalWorld [ruleStep, requestStep sampleRequest, approveStep]).routed =
        [(executed, reply)] ∧
      (Faithful sampleRequest executed ↔ TextRequest sampleRequest) := by
  have hlength : (finalWorld [ruleStep, requestStep sampleRequest, approveStep]).routed.length =
      1 := by decide
  obtain ⟨⟨executed, reply⟩, hrouted⟩ := List.length_eq_one_iff.mp hlength
  have hbefore : (finalWorld [ruleStep, requestStep sampleRequest]).routed = [] :=
    List.length_eq_zero_iff.mp (by decide)
  have hvote : approveStep.call = .approve sampleApprover "5d2b6e0c" := rfl
  have hdispatch : (finalWorld [ruleStep, requestStep sampleRequest, approveStep]).routed =
      (finalWorld [ruleStep, requestStep sampleRequest]).routed ++ [(executed, reply)] := by
    rw [hbefore, hrouted, List.nil_append]
  exact ⟨executed, reply, hrouted, faithful_iff_textRequest [ruleStep] []
    (requestStep sampleRequest) approveStep rfl rfl (by decide) (List.forall_mem_nil _) hvote
    hdispatch⟩

end VaultProofs.ExecutedRequests
