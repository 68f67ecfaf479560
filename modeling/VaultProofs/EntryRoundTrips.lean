import VaultProofs.ApprovalEntries

/-!
One trip of a record through storage: `decodeJSON` reads what `marshalJSON` writes back as the
normalised record.
-/

namespace VaultProofs.ApprovalEntries

open GoStrings JsonValues

@[simp] theorem Operation.ofName_name (op : Operation) : Operation.ofName op.name = some op := by
  cases op <;> decide

@[simp] theorem Status.ofName_name (status : Status) : Status.ofName status.name = status := by
  cases status <;> decide

theorem coerced_of_isEmptyValue {text : GoString} (h : (textJson text).isEmptyValue = true) :
    coerced text = [] := by
  have hempty : coerceUTF8 text = "" := by simpa [textJson, Json.isEmptyValue] using h
  unfold coerced
  rw [hempty]
  rfl

theorem readField_text {members : List (String × Json)} {name : String} {zero : GoString}
    (text : GoString) (hlast : lastValue members name = some (textJson text) := by simp) :
    readField members name Json.readText zero = some (coerced text) :=
  readField_eq _ _ rfl hlast (by simp [textJson])

theorem readList_textJson (texts : List GoString) :
    Json.readList Json.readText (.array (texts.map textJson)) = some (texts.map coerced) :=
  mapM_map_eq_some (fun text => show (textJson text).readText = some (coerced text) from rfl) texts

variable {entries : Option GoMap} {j : Json}

theorem readMap_marshalMap (h : marshalMap entries = some j) : (entries = none ∧ j = .null) ∨
      (j ≠ .null ∧ j.readMap = some (entries.map normalizeEntries)) := by
  cases entries with
  | none =>
    left
    exact ⟨rfl, by simpa [marshalMap] using h.symm⟩
  | some entries =>
    right
    obtain ⟨members, hmembers, rfl⟩ : ∃ members, marshalEntries entries = some members ∧
        Json.object members = j := by
      simpa [marshalMap] using h
    refine ⟨by simp, ?_⟩
    simp [Json.readMap, unmarshalMembers_marshalEntries hmembers]

theorem isEmptyValue_marshalMap (h : marshalMap entries = some j) :
    j.isEmptyValue = true ↔ entries = none ∨ entries = some [] := by
  rcases entries with _ | entries
  · obtain rfl : Json.null = j := by simpa [marshalMap] using h
    simp [Json.isEmptyValue]
  obtain ⟨members, hmembers, rfl⟩ : ∃ members, marshalEntries entries = some members ∧
      Json.object members = j := by
    simpa [marshalMap] using h
  rcases entries with _ | ⟨⟨key, value⟩, rest⟩
  · obtain rfl : [] = members := by simpa [marshalEntries] using hmembers
    simp [Json.isEmptyValue]
  obtain ⟨j, _, js, _, rfl⟩ : ∃ j, value.marshal = some j ∧
      ∃ js, marshalEntries rest = some js ∧ (coerceUTF8 key, j) :: js = members := by
    simpa [marshalEntries, Option.bind_eq_some_iff] using hmembers
  simp [Json.isEmptyValue]

theorem ApprovalRule.decodeJSON_marshalJSON (rule : ApprovalRule) :
    ApprovalRule.decodeJSON rule.marshalJSON = some rule.normalize := by
  refine bind_eq_some rfl ?_
  refine bind_eq_some (readField_str rule.ruleID) ?_
  refine bind_eq_some (readField_omitEmpty_eq (textJson rule.description)
    (coerced rule.description) (fun _ => rfl) coerced_of_isEmptyValue) ?_
  refine bind_eq_some (readField_text rule.targetMountPath) ?_
  refine bind_eq_some (readField_eq (.array (rule.authorizedApprovers.map textJson))
    (rule.authorizedApprovers.map coerced) (readList_textJson _)) ?_
  refine bind_eq_some (readField_eq (.number (.int rule.approvalsRequired))
    rule.approvalsRequired rfl) ?_
  refine bind_eq_some (readField_omitEmpty_eq (textJson rule.slackWebhookURL)
    (coerced rule.slackWebhookURL) (fun _ => rfl) coerced_of_isEmptyValue) ?_
  refine bind_eq_some (readField_omitEmpty_eq (.str rule.createdByEntityID)
    rule.createdByEntityID) ?_
  refine bind_eq_some (readField_omitEmpty_eq (.bool rule.allowSelfApproval)
    rule.allowSelfApproval) ?_
  rfl

theorem ApprovalRecord.decodeJSON_marshalJSON (record : ApprovalRecord) :
    ApprovalRecord.decodeJSON record.marshalJSON = some record := by
  refine bind_eq_some rfl ?_
  refine bind_eq_some (readField_str record.approverEntityID) ?_
  refine bind_eq_some (readField_time record.approvedAt) ?_
  rfl

theorem readHeaders_headerJson (headers : List (GoString × List GoString)) :
    Json.readHeaders (.object (headers.map headerJson)) =
      some (headers.map fun header => (coerced header.1, header.2.map coerced)) := by
  apply mapM_map_eq_some
  intro header
  simp only [headerJson, readList_textJson, Option.map_some]
  rfl

theorem readField_originalData {members : List (String × Json)} (h : marshalMap entries = some j)
    (hlast : lastValue members "original_data" = some j) :
    readField members "original_data" Json.readMap none =
      some (entries.map normalizeEntries) := by
  rcases readMap_marshalMap h with ⟨rfl, rfl⟩ | ⟨hnull, hread⟩
  · simp [readField, hlast]
  · exact readField_eq j _ hread hlast hnull

theorem storedCredential_of_isEmptyValue (h : marshalMap entries = some j)
    (hempty : j.isEmptyValue = true) :
    storedCredential entries = none := by
  rcases (isEmptyValue_marshalMap h).mp hempty with rfl | rfl <;> rfl

theorem readMap_storedCredential (h : marshalMap entries = some j)
    (hempty : j.isEmptyValue = false) :
    j.readMap = some (storedCredential entries) := by
  have hne : ¬ (entries = none ∨ entries = some []) := by
    intro hcases
    have := (isEmptyValue_marshalMap h).mpr hcases
    simp [hempty] at this
  rcases readMap_marshalMap h with ⟨rfl, rfl⟩ | ⟨_, hread⟩
  · simp at hne
  rw [hread]
  rcases entries with _ | _ | ⟨entry, rest⟩
  · simp at hne
  · simp at hne
  · rfl

theorem readList_approvals (approvals : List ApprovalRecord) :
    Json.readList ApprovalRecord.decodeJSON
      (.array (approvals.map ApprovalRecord.marshalJSON)) = some approvals := by
  have hread := mapM_map_eq_some ApprovalRecord.decodeJSON_marshalJSON approvals
  rwa [List.map_id'] at hread

theorem PendingRequest.decodeJSON_marshalJSON {r : PendingRequest} (h : r.marshalJSON = some j) :
    PendingRequest.decodeJSON j = some r.normalize := by
  obtain ⟨data, hdata, credential, hcredential, rfl⟩ :
      ∃ data, marshalMap r.originalData = some data ∧
        ∃ credential, marshalMap r.credentialData = some credential ∧
          .object (r.jsonMembers data credential) = j := by
    simpa only [PendingRequest.marshalJSON, Option.bind_eq_bind, Option.bind_eq_some_iff,
      Option.pure_def, Option.some.injEq] using h
  rw [jsonMembers]
  refine bind_eq_some rfl ?_
  refine bind_eq_some (readField_str r.requestID) ?_
  refine bind_eq_some (readField_str r.ruleID) ?_
  refine bind_eq_some (readField_text r.originalPath) ?_
  refine bind_eq_some (readField_eq (.str r.originalOperation.name) r.originalOperation
    (by simp [Json.readString])) ?_
  refine bind_eq_some (readField_originalData hdata (by simp)) ?_
  refine bind_eq_some (readField_eq (.object (r.originalHeaders.map headerJson)) _
    (readHeaders_headerJson _)) ?_
  refine bind_eq_some (readField_text r.originalMountPoint) ?_
  refine bind_eq_some (readField_str r.requesterEntityID) ?_
  refine bind_eq_some (readField_text r.requesterDisplayName) ?_
  refine bind_eq_some (readField_eq (.array (r.approvals.map ApprovalRecord.marshalJSON))
    r.approvals (readList_approvals r.approvals)) ?_
  refine bind_eq_some (readField_eq (.str r.status.name) r.status (by simp [Json.readString])) ?_
  refine bind_eq_some (readField_time r.createdAt) ?_
  refine bind_eq_some (readField_time r.expiresAt) ?_
  refine bind_eq_some (readField_omitEmpty_eq credential (storedCredential r.credentialData)
    (readMap_storedCredential hcredential) (storedCredential_of_isEmptyValue hcredential)) ?_
  refine bind_eq_some (readField_omitEmpty_eq (.time r.approvedAt) r.approvedAt) ?_
  refine bind_eq_some (readField_omitEmpty_eq (.number (.int r.secretTTL)) r.secretTTL) ?_
  refine bind_eq_some (readField_omitEmpty_eq (.number (.int r.secretMaxTTL)) r.secretMaxTTL) ?_
  refine bind_eq_some (readField_omitEmpty_eq (textJson r.justification)
    (coerced r.justification) (fun _ => rfl) coerced_of_isEmptyValue) ?_
  rfl

@[simp] theorem HistoryStatus.ofName_name (status : HistoryStatus) :
    HistoryStatus.ofName status.name = some status := by
  cases status <;> decide

theorem ApprovalHistoryEntry.decodeJSON_marshalJSON (h : ApprovalHistoryEntry) :
    ApprovalHistoryEntry.decodeJSON h.marshalJSON = some h.normalize := by
  refine bind_eq_some rfl ?_
  refine bind_eq_some (readField_str h.requestID) ?_
  refine bind_eq_some (readField_str h.ruleID) ?_
  refine bind_eq_some (readField_text h.originalPath) ?_
  refine bind_eq_some (readField_str h.requesterEntityID) ?_
  refine bind_eq_some (readField_text h.requesterDisplayName) ?_
  refine bind_eq_some (readField_omitEmpty_eq (textJson h.justification)
    (coerced h.justification) (fun _ => rfl) coerced_of_isEmptyValue) ?_
  refine bind_eq_some (readField_eq (.str h.status.name) h.status (by simp [Json.readString])) ?_
  refine bind_eq_some (readField_time h.createdAt) ?_
  refine bind_eq_some (readField_time h.resolvedAt) ?_
  refine bind_eq_some (readField_omitEmpty_eq (.str h.resolvedBy) h.resolvedBy) ?_
  refine bind_eq_some (readField_omitEmpty_eq (textJson h.resolvedByName)
    (coerced h.resolvedByName) (fun _ => rfl) coerced_of_isEmptyValue) ?_
  refine bind_eq_some (readField_time h.historyExpiresAt) ?_
  rfl

theorem coerced_coerced (text : GoString) : coerced (coerced text) = coerced text := by
  simp [coerced]

theorem storedCredential_storedCredential (entries : Option GoMap) :
    storedCredential (storedCredential entries) = storedCredential entries := by
  rcases entries with _ | _ | ⟨⟨key, value⟩, rest⟩
  · rfl
  · rfl
  · simp only [storedCredential, normalizeEntries, coerceUTF8_ofString, normalize_normalize,
      normalizeEntries_normalizeEntries]

theorem PendingRequest.normalize_normalize (r : PendingRequest) :
    r.normalize.normalize = r.normalize := by
  simp only [PendingRequest.normalize, coerced_coerced, storedCredential_storedCredential,
    Option.map_map, List.map_map, PendingRequest.mk.injEq, true_and, and_true]
  refine ⟨?_, ?_⟩
  · cases r.originalData with
    | none => rfl
    | some entries => simp [normalizeEntries_normalizeEntries]
  apply List.map_congr_left
  intro header _
  simp only [Function.comp_apply, coerced_coerced, List.map_map, Prod.mk.injEq, true_and]
  apply List.map_congr_left
  intro value _
  exact coerced_coerced value

theorem marshalMap_of_readField {members : List (String × Json)} {name : String}
    (h : readField members name Json.readMap none = some entries) :
    ∃ data, marshalMap entries = some data := by
  unfold readField at h
  split at h
  · cases h
    exact ⟨.null, rfl⟩
  · cases h
    exact ⟨.null, rfl⟩
  rename_i value _ _
  cases value with
  | object inner =>
    cases h
    exact ⟨.object inner, by simp [marshalMap, marshalEntries_unmarshalMembers]⟩
  | _ => cases h

theorem PendingRequest.marshalMap_of_decodeJSON {r : PendingRequest} (h : decodeJSON j = some r) :
    (∃ data, marshalMap r.originalData = some data) ∧
      ∃ data, marshalMap r.credentialData = some data := by
  obtain ⟨members, _, h⟩ := exists_of_bind_eq_some h
  iterate 4 obtain ⟨_, _, h⟩ := exists_of_bind_eq_some h
  obtain ⟨originalData, hdata, h⟩ := exists_of_bind_eq_some h
  iterate 8 obtain ⟨_, _, h⟩ := exists_of_bind_eq_some h
  obtain ⟨credentialData, hcredential, h⟩ := exists_of_bind_eq_some h
  iterate 4 obtain ⟨_, _, h⟩ := exists_of_bind_eq_some h
  cases h
  exact ⟨marshalMap_of_readField hdata, marshalMap_of_readField hcredential⟩

/-- What has been read from storage can be written and read again, and does not change any more. -/
theorem records_stable_in_storage :
    (∀ rule : ApprovalRule, ∃ stored, ApprovalRule.decodeJSON rule.marshalJSON = some stored ∧
        ApprovalRule.decodeJSON stored.marshalJSON = some stored) ∧
      (∀ h : ApprovalHistoryEntry, ∃ stored,
        ApprovalHistoryEntry.decodeJSON h.marshalJSON = some stored ∧
          ApprovalHistoryEntry.decodeJSON stored.marshalJSON = some stored) ∧
      ∀ (r : PendingRequest) (j : Json), r.marshalJSON = some j → ∃ stored j',
        PendingRequest.decodeJSON j = some stored ∧ stored.marshalJSON = some j' ∧
          PendingRequest.decodeJSON j' = some stored := by
  refine ⟨fun rule => ⟨_, rule.decodeJSON_marshalJSON, ?_⟩,
    fun h => ⟨_, h.decodeJSON_marshalJSON, ?_⟩, fun r j hj => ?_⟩
  · rw [ApprovalRule.decodeJSON_marshalJSON]
    simp [ApprovalRule.normalize, coerced_coerced]
  · rw [ApprovalHistoryEntry.decodeJSON_marshalJSON]
    simp [ApprovalHistoryEntry.normalize, coerced_coerced]
  have hread := PendingRequest.decodeJSON_marshalJSON hj
  obtain ⟨⟨data, hdata⟩, credential, hcredential⟩ := PendingRequest.marshalMap_of_decodeJSON hread
  obtain ⟨j', hj'⟩ : ∃ j', r.normalize.marshalJSON = some j' := by
    apply Option.ne_none_iff_exists'.mp
    rw [Ne, PendingRequest.marshalJSON_eq_none_iff, hdata, hcredential]
    simp
  refine ⟨_, j', hread, hj', ?_⟩
  rw [PendingRequest.decodeJSON_marshalJSON hj', PendingRequest.normalize_normalize]

end VaultProofs.ApprovalEntries
