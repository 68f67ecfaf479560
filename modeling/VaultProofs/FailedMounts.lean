import VaultProofs.MountPaths

/-!
A mount of which one step fails. The mount tables and the router are changed at different steps,
and only one of the later failures is followed by an unmount.
-/

namespace VaultProofs.FailedMounts

open GoStrings LongestPrefixes MountPaths

inductive MountStep where
  | generateUUID
  | newForwardedWriter
  | preprocessMount
  | newLogicalBackend
  | persistMounts
  | routerMount
  | entBuiltinPluginMetrics
  | runFilteredPathsEvaluation
  | initializeBackend
  deriving DecidableEq

inductive MountError where
  | conflict
  | failed (step : MountStep)
  deriving DecidableEq

structure Tables extends Core where
  stored : List MountEntry

def Conflicts (ns : GoString) (entry : MountEntry) (t : Tables) : Prop :=
  (∃ ent ∈ t.mounts, hasPrefix ent.path entry.path ∨ hasPrefix entry.path ent.path) ∨
    mountConflict t.toCore (ns ++ entry.path) ≠ none

instance (ns : GoString) (entry : MountEntry) (t : Tables) : Decidable (Conflicts ns entry t) :=
  inferInstanceAs (Decidable (_ ∨ _))

def unmountInternal (ns path : GoString) (t : Tables) : Tables :=
  if matchingMount t.toCore (ns ++ path) = some (ns ++ path) then
    let mounts := t.mounts.eraseP (·.path = path)
    ⟨⟨mounts, t.router.filter (·.1 ≠ ns ++ path)⟩, mounts⟩
  else t

def mountInternalWithRequest (ns : GoString) (updateStorage nilMount : Bool) (failing : MountStep)
    (entry : MountEntry) (t : Tables) : Option MountError × Tables :=
  let failed := some (MountError.failed failing)
  if Conflicts ns entry t then (some .conflict, t)
  else if failing ∈ [.generateUUID, .newForwardedWriter, .preprocessMount, .newLogicalBackend] then
    (failed, t)
  else
    let mounts := t.mounts ++ [entry]
    if updateStorage ∧ failing = .persistMounts then (failed, t)
    else
      let t := { t with mounts, stored := if updateStorage then mounts else t.stored }
      if failing = .routerMount then (failed, t)
      else
        let t := { t with router := (ns ++ entry.path, entry.uuid) :: t.router }
        if failing = .entBuiltinPluginMetrics then (failed, t)
        else if failing = .runFilteredPathsEvaluation then
          (failed, unmountInternal ns entry.path t)
        else if nilMount = false ∧ failing = .initializeBackend then (failed, t)
        else (none, t)

def Free (ns path : GoString) (t : Tables) : Prop :=
  path ∉ t.mounts.map (·.path) ∧ path ∉ t.stored.map (·.path) ∧ ns ++ path ∉ t.router.map (·.1)

variable {ns : GoString} {entry : MountEntry} {t : Tables} {updateStorage nilMount : Bool}
  {failing : MountStep}

theorem unmountInternal_mounted {stored : List MountEntry} (hfree : Free ns entry.path t)
    (hne : ns ++ entry.path ≠ []) :
    unmountInternal ns entry.path
      ⟨⟨t.mounts ++ [entry], (ns ++ entry.path, entry.uuid) :: t.router⟩, stored⟩ =
        ⟨t.toCore, t.mounts⟩ := by
  obtain ⟨hmounts, -, hrouter⟩ := hfree
  have hmatching : matchingMount ⟨t.mounts ++ [entry], (ns ++ entry.path, entry.uuid) :: t.router⟩
      (ns ++ entry.path) = some (ns ++ entry.path) := by
    have hself := List.prefix_refl (ns ++ entry.path)
    simp only [matchingMount, List.map_cons]
    cases hlongest : longestWith (· ∈ (ns ++ entry.path) :: t.router.map (·.1))
        (ns ++ entry.path) with
    | none => simpa using longestWith_eq_none hlongest hself
    | some start =>
      obtain ⟨hstarts, -, hlongest⟩ := longestWith_eq_some hlongest
      rw [hstarts.eq_of_length_le (hlongest _ hself (by simp))]
      simp [hne]
  have hkept : t.router.filter (·.1 ≠ ns ++ entry.path) = t.router :=
    List.filter_eq_self.mpr fun e he =>
      decide_eq_true fun heq => hrouter (heq ▸ List.mem_map_of_mem he)
  have herased : (t.mounts ++ [entry]).eraseP (·.path = entry.path) = t.mounts := by
    rw [List.eraseP_append_right]
    · simp
    · exact fun e he heq => hmounts (of_decide_eq_true heq ▸ List.mem_map_of_mem he)
  rw [unmountInternal, if_pos hmatching, List.filter_cons_of_neg (by simp), hkept, herased]

/-- A mount that fails leaves no entry for its path, and no conflict for the next attempt, exactly
if it does not fail in the router, in the metrics or in the backend's initialisation; an unmount
does not find an empty path. -/
theorem failed_mount_undone_iff (hfree : Free ns entry.path t)
    (herror : (mountInternalWithRequest ns updateStorage nilMount failing entry t).1 ≠ none) :
    let t' := (mountInternalWithRequest ns updateStorage nilMount failing entry t).2
    (Free ns entry.path t' ∧ (Conflicts ns entry t' → Conflicts ns entry t)) ↔
      Conflicts ns entry t ∨ failing ∉ [.routerMount, .entBuiltinPluginMetrics, .initializeBackend] ∧
        (failing = .runFilteredPathsEvaluation → ns ++ entry.path ≠ []) := by
  have hlisted : ∀ router stored, ¬ Free ns entry.path ⟨⟨t.mounts ++ [entry], router⟩, stored⟩ := by
    simp [Free]
  by_cases hconflict : Conflicts ns entry t
  · simp [mountInternalWithRequest, hconflict, hfree]
  cases failing with
  | runFilteredPathsEvaluation =>
    by_cases hne : ns ++ entry.path = []
    · simp [mountInternalWithRequest, hconflict, unmountInternal, matchingMount, hne, hlisted]
    have hundone : Free ns entry.path ⟨t.toCore, t.mounts⟩ := ⟨hfree.1, hfree.1, hfree.2.2⟩
    have hagain : ¬ Conflicts ns entry ⟨t.toCore, t.mounts⟩ := hconflict
    refine iff_of_true ?_ (.inr ⟨by decide, fun _ => hne⟩)
    simp [mountInternalWithRequest, hconflict, unmountInternal_mounted hfree hne, hundone, hagain]
  | persistMounts => cases updateStorage <;> simp_all [mountInternalWithRequest]
  | initializeBackend => cases nilMount <;> simp_all [mountInternalWithRequest]
  | _ => simp [mountInternalWithRequest, hconflict, hfree, hlisted]

theorem unwritten_mount_undone :
    let t := (mountInternalWithRequest [] true false .persistMounts ⟨0, [1]⟩ ⟨⟨[], []⟩, []⟩).2
    Free [] [1] t :=
  ((failed_mount_undone_iff (by simp [Free]) (by decide)).mpr (.inr (by decide))).1

theorem uninitialized_engine_mounted :
    let mount failing := mountInternalWithRequest [] true false failing ⟨0, ofString "kv/"⟩
    let t : Tables := ⟨⟨[], []⟩, []⟩
    (mount .initializeBackend t).1 = some (.failed .initializeBackend) ∧
      (mount .newLogicalBackend (mount .initializeBackend t).2).1 = some .conflict := by
  decide

end VaultProofs.FailedMounts
