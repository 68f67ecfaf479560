import Mathlib.Logic.Function.Basic
import VaultProofs.EffectPrograms

/-!
Interleaved programs that share a state. A schedule names for each step the thread that performs its
next operation and the environment that answers it. One cell is watched: the pool counts its
versions, and knows for every thread the version it last read or wrote.
-/

namespace VaultProofs.ConcurrentPrograms

open EffectPrograms

inductive Access where
  | none
  | read
  | write
  deriving DecidableEq

/-- The meaning of the operations: environment and shared state determine the answer and the next
state. -/
structure Machine (I : Interface) (E σ : Type) where
  exec : E → (op : I.Op) → σ → I.Answer op × σ
  access : I.Op → Access

/-- Threads over a shared state. `version` counts the writes of the cell, `seen i` is the version
thread `i` last read or wrote. -/
structure Pool (I : Interface) (ι σ α : Type) where
  state : σ
  threads : ι → Prog I α
  version : Nat
  seen : ι → Nat

namespace Pool

variable {I : Interface} {ι E σ α Q : Type} [DecidableEq ι]

def start (state : σ) (threads : ι → Prog I α) : Pool I ι σ α where
  state := state
  threads := threads
  version := 0
  seen := fun _ => 0

def nextVersion (version : Nat) : Access → Nat
  | .write => version + 1
  | _ => version

def nextSeen (version : Nat) (seen : ι → Nat) (i : ι) : Access → ι → Nat
  | .none => seen
  | .read => Function.update seen i version
  | .write => Function.update seen i (version + 1)

theorem nextSeen_of_ne (version : Nat) (seen : ι → Nat) (access : Access) {i j : ι} (hj : j ≠ i) :
    nextSeen version seen i access j = seen j := by
  cases access <;> simp [nextSeen, hj]

theorem nextSeen_le {version : Nat} {seen : ι → Nat} (hseen : ∀ j, seen j ≤ version) (i : ι)
    (access : Access) (j : ι) : nextSeen version seen i access j ≤ nextVersion version access := by
  have hj := hseen j
  by_cases hij : j = i
  · subst hij
    cases access <;> simp [nextSeen, nextVersion, hj]
  · rw [nextSeen_of_ne version seen access hij]
    cases access <;> simp only [nextVersion] <;> omega

theorem seen_of_nextSeen {version : Nat} {seen : ι → Nat} {access : Access} {i j : ι}
    (hseen : seen j ≤ version) (hj : j ≠ i)
    (h : nextSeen version seen i access j = nextVersion version access) :
    seen j = version ∧ access ≠ .write := by
  rw [nextSeen_of_ne version seen access hj] at h
  cases access with
  | write =>
    simp only [nextVersion] at h
    omega
  | none | read => exact ⟨h, by simp⟩

/-- Let thread `i` perform its next operation; a finished thread stays as it
is. -/
def advance (M : Machine I E σ) (i : ι) (e : E) (c : Pool I ι σ α) : Pool I ι σ α :=
  match c.threads i with
  | .ret _ => c
  | .call op next =>
    { state := (M.exec e op c.state).2
      threads := Function.update c.threads i (next (M.exec e op c.state).1)
      version := nextVersion c.version (M.access op)
      seen := nextSeen c.version c.seen i (M.access op) }

def runSchedule (M : Machine I E σ) : List (ι × E) → Pool I ι σ α → Pool I ι σ α
  | [], c => c
  | (i, e) :: rest, c => runSchedule M rest (advance M i e c)

def nextAccess (M : Machine I E σ) : Prog I α → Access
  | .ret _ => .none
  | .call op _ => M.access op

/-- If the next operation of thread `i` writes the cell, nobody else has since the thread last read
or wrote it. -/
def FreshWrite (M : Machine I E σ) (i : ι) (c : Pool I ι σ α) : Prop :=
  nextAccess M (c.threads i) = .write → c.seen i = c.version

/-- Every step of the schedule, from the pool on, meets the condition. -/
def Along (M : Machine I E σ) (cond : ι → E → Pool I ι σ α → Prop) :
    List (ι × E) → Pool I ι σ α → Prop
  | [], _ => True
  | (i, e) :: rest, c => cond i e c ∧ Along M cond rest (advance M i e c)

def NoStaleWrite (M : Machine I E σ) : List (ι × E) → Pool I ι σ α → Prop :=
  Along M fun i _ c => FreshWrite M i c

instance (M : Machine I E σ) (i : ι) (c : Pool I ι σ α) : Decidable (FreshWrite M i c) :=
  inferInstanceAs (Decidable (_ → _))

instance decidableAlong (M : Machine I E σ) (cond : ι → E → Pool I ι σ α → Prop)
    [∀ i e c, Decidable (cond i e c)] :
    (schedule : List (ι × E)) → (c : Pool I ι σ α) → Decidable (Along M cond schedule c)
  | [], _ => isTrue trivial
  | (i, e) :: rest, c =>
    have := decidableAlong M cond rest (advance M i e c)
    inferInstanceAs (Decidable (cond i e c ∧ Along M cond rest (advance M i e c)))

instance decidableNoStaleWrite (M : Machine I E σ) (schedule : List (ι × E))
    (c : Pool I ι σ α) : Decidable (NoStaleWrite M schedule c) :=
  decidableAlong M (fun i _ c => FreshWrite M i c) schedule c

variable {M : Machine I E σ}

/-- Invariant rule: what every step that meets a condition keeps in a good environment holds at the
end of every schedule of such steps. -/
theorem runSchedule_preserves {cond : ι → E → Pool I ι σ α → Prop} {good : E → Prop}
    {K : Pool I ι σ α → Prop} (hstep : ∀ i e c, good e → cond i e c → K c → K (advance M i e c))
    (schedule : List (ι × E)) (c : Pool I ι σ α) (hgood : ∀ move ∈ schedule, good move.2)
    (halong : Along M cond schedule c) (hc : K c) : K (runSchedule M schedule c) := by
  induction schedule generalizing c with
  | nil => exact hc
  | cons move rest ih =>
    obtain ⟨i, e⟩ := move
    obtain ⟨hmove, hrest⟩ := halong
    have he : good e := hgood (i, e) (.head _)
    have hlater : ∀ move ∈ rest, good move.2 :=
      fun move hmem => hgood move (.tail _ hmem)
    exact ih _ hlater hrest (hstep i e c he hmove hc)

theorem runSchedule_append (M : Machine I E σ) (first second : List (ι × E)) (c : Pool I ι σ α) :
    runSchedule M (first ++ second) c = runSchedule M second (runSchedule M first c) := by
  induction first generalizing c with
  | nil => rfl
  | cons move first ih => exact ih _

theorem along_append (M : Machine I E σ) (cond : ι → E → Pool I ι σ α → Prop)
    (first second : List (ι × E)) (c : Pool I ι σ α) :
    Along M cond (first ++ second) c ↔
      Along M cond first c ∧ Along M cond second (runSchedule M first c) := by
  induction first generalizing c with
  | nil => exact ⟨fun h => ⟨trivial, h⟩, fun h => h.2⟩
  | cons move first ih =>
    obtain ⟨i, e⟩ := move
    have hrest := ih (advance M i e c)
    simp only [List.cons_append, Along, runSchedule] at hrest ⊢
    rw [hrest, and_assoc]

theorem noStaleWrite_append (M : Machine I E σ) (first second : List (ι × E)) (c : Pool I ι σ α) :
    NoStaleWrite M (first ++ second) c ↔
      NoStaleWrite M first c ∧ NoStaleWrite M second (runSchedule M first c) :=
  along_append M (fun i _ c => FreshWrite M i c) first second c

def InPhases (P : ι → Protocol I Q) (final : ι → Q → α → Prop) (phases : ι → Q)
    (threads : ι → Prog I α) : Prop :=
  ∀ i, (P i).Follows (final i) (phases i) (threads i)

/-- The pool is related by `J` to phases that its threads are in. -/
def Tracks (P : ι → Protocol I Q) (final : ι → Q → α → Prop)
    (J : σ → Nat → (ι → Nat) → (ι → Q) → Prop) (c : Pool I ι σ α) : Prop :=
  ∃ phases, InPhases P final phases c.threads ∧ J c.state c.version c.seen phases

variable {P : ι → Protocol I Q} {final : ι → Q → α → Prop} {i : ι}

theorem inPhases_update {phases : ι → Q} {threads : ι → Prog I α}
    (h : InPhases P final phases threads) {q : Q} {p : Prog I α}
    (hi : (P i).Follows (final i) q p) :
    InPhases P final (Function.update phases i q) (Function.update threads i p) := by
  intro j
  by_cases hj : j = i
  · subst hj
    simpa using hi
  · simpa [hj] using h j

variable {J : σ → Nat → (ι → Nat) → (ι → Q) → Prop} {e : E} {c : Pool I ι σ α}
  (hadmits : ∀ op phases, J c.state c.version c.seen phases →
    (P i).admits op (M.exec e op c.state).1)

include hadmits

/-- To keep a relation between a pool and the phases of its threads, it is enough to keep it along
the moves of the protocols. `ready` is known of the next operation of the thread. -/
theorem tracks_step {ready : I.Op → Prop}
    (hready : ∀ op next, c.threads i = .call op next → ready op)
    (hmove : ∀ op phases q, J c.state c.version c.seen phases → ready op →
      (P i).step (phases i) op (M.exec e op c.state).1 q →
      J (M.exec e op c.state).2 (nextVersion c.version (M.access op))
        (nextSeen c.version c.seen i (M.access op)) (Function.update phases i q))
    (hc : Tracks P final J c) : Tracks P final J (advance M i e c) := by
  obtain ⟨phases, hphases, hJ⟩ := hc
  have hthread := hphases i
  unfold advance
  split
  · exact ⟨phases, hphases, hJ⟩
  rename_i op next hop
  rw [hop] at hthread
  obtain ⟨q, hq, hnext⟩ := hthread _ (hadmits op phases hJ)
  exact ⟨Function.update phases i q, inPhases_update hphases hnext,
    hmove op phases q hJ (hready op next hop) hq⟩

theorem tracks_advance (hfresh : FreshWrite M i c)
    (hmove : ∀ op phases q, J c.state c.version c.seen phases →
      (M.access op = .write → c.seen i = c.version) →
      (P i).step (phases i) op (M.exec e op c.state).1 q →
      J (M.exec e op c.state).2 (nextVersion c.version (M.access op))
        (nextSeen c.version c.seen i (M.access op)) (Function.update phases i q))
    (hc : Tracks P final J c) : Tracks P final J (advance M i e c) := by
  refine tracks_step hadmits ?_ hmove hc
  intro op next hop
  unfold FreshWrite at hfresh
  rw [hop] at hfresh
  exact hfresh

end Pool

end VaultProofs.ConcurrentPrograms
