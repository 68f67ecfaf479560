import VaultProofs.ConcurrentPrograms
import VaultProofs.ProgramOutcomes

/-!
Programs that share a state. A contract says what a program relies on, how others may change the
state between its operations, and what it guarantees, how its own operations change it.
-/

namespace VaultProofs.SharedPrograms

open EffectPrograms ConcurrentPrograms ProgramOutcomes

variable {I : Interface} {ι E σ α β ε : Type}

/-- The others may take the state along `rely` before an operation, which takes it along `guar`. -/
def sharing (rely guar : σ → σ → Prop) (R : Outcomes I σ) : Logic I σ where
  wp op k s := ∀ s₁, rely s s₁ → ∀ answer s', R op s₁ answer s' → guar s₁ s' ∧ k answer s'
  mono hk h := fun s₁ hs₁ answer s' hR =>
    let ⟨hguar, hs'⟩ := h s₁ hs₁ answer s' hR
    ⟨hguar, hk answer s' hs'⟩

theorem Ends.alone {rely guar : σ → σ → Prop} {R R₀ : Outcomes I σ} {K : σ → Prop}
    (hrest : ∀ s s₁, K s → rely s s₁ → s₁ = s)
    (hstep : ∀ op s answer s', K s → R op s answer s' → R₀ op s answer s' ∧ guar s s' ∧ K s')
    {post : α → σ → Prop} {p : Prog I α} {s : σ} (h : Ends (allOutcomes R₀) post p s) (hs : K s) :
    Ends (sharing rely guar R) (fun value s' => post value s' ∧ K s') p s := by
  induction p generalizing s with
  | ret value => exact ⟨h, hs⟩
  | call op next ih =>
    intro s₁ hs₁ answer s' hR
    rw [hrest s s₁ hs hs₁] at hR ⊢
    obtain ⟨hR₀, hguar, hs'⟩ := hstep op s answer s' hs hR
    exact ⟨hguar, ih answer (h answer s' hR₀) hs'⟩

structure Contract (I : Interface) (σ α : Type) where
  rely : σ → σ → Prop
  guar : σ → σ → Prop
  outcomes : Outcomes I σ
  post : α → σ → Prop
  rely_trans : ∀ a b c, rely a b → rely b c → rely a c
  post_rely : ∀ value s s', rely s s' → post value s → post value s'

def Contract.Holds (C : Contract I σ α) (p : Prog I α) (s : σ) : Prop :=
  Ends (sharing C.rely C.guar C.outcomes) C.post p s

theorem Contract.Holds.after {C : Contract I σ α} {p : Prog I α} {s s₁ : σ} (h : C.Holds p s)
    (hs₁ : C.rely s s₁) : C.Holds p s₁ := by
  cases p with
  | ret value => exact C.post_rely value s s₁ hs₁ h
  | call op next => exact fun s₂ hs₂ => h s₂ (C.rely_trans s s₁ s₂ hs₁ hs₂)

variable [DecidableEq ι]

def Honours (C : ι → Contract I σ α) (c : Pool I ι σ α) : Prop :=
  ∀ i, (C i).Holds (c.threads i) c.state

structure Compatible (C : ι → Contract I σ α) : Prop where
  rely_self : ∀ i s, (C i).rely s s
  others : ∀ i j, j ≠ i → ∀ s s', (C i).guar s s' → (C j).rely s s'

theorem honours_advance {M : Machine I E σ} {C : ι → Contract I σ α} (hC : Compatible C) {i : ι}
    {e : E} {c : Pool I ι σ α} {P : σ → Prop} (hP : ∀ s s', (C i).guar s s' → P s → P s')
    (hstep : ∀ op next, c.threads i = .call op next →
      (C i).outcomes op c.state (M.exec e op c.state).1 (M.exec e op c.state).2)
    (hc : Honours C c) (hs : P c.state) :
    Honours C (Pool.advance M i e c) ∧ P (Pool.advance M i e c).state := by
  have hthread := hc i
  unfold Pool.advance
  split
  · exact ⟨hc, hs⟩
  rename_i op next hop
  rw [hop] at hthread
  obtain ⟨hguar, hnext⟩ := hthread _ (hC.rely_self i _) _ _ (hstep op next hop)
  refine ⟨?_, hP _ _ hguar hs⟩
  intro j
  by_cases hj : j = i
  · subst hj
    show (C j).Holds (Function.update c.threads j _ j) _
    rw [Function.update_self]
    exact hnext
  · show (C j).Holds (Function.update c.threads i _ j) _
    rw [Function.update_of_ne hj]
    exact (hc j).after (hC.others i j hj _ _ hguar)

/-- Threads with compatible contracts honour them along every schedule, and what all
the guarantees keep is kept. -/
theorem honours_runSchedule {M : Machine I E σ} {C : ι → Contract I σ α} (hC : Compatible C)
    {cond : ι → E → Pool I ι σ α → Prop} {P : σ → Prop}
    (hP : ∀ i s s', (C i).guar s s' → P s → P s')
    (hstep : ∀ i e c, cond i e c → ∀ op next, c.threads i = .call op next →
      (C i).outcomes op c.state (M.exec e op c.state).1 (M.exec e op c.state).2)
    (schedule : List (ι × E)) (c : Pool I ι σ α) (halong : Pool.Along M cond schedule c)
    (hc : Honours C c) (hs : P c.state) :
    Honours C (Pool.runSchedule M schedule c) ∧ P (Pool.runSchedule M schedule c).state := by
  have hkeep : ∀ i e c, True → cond i e c → Honours C c ∧ P c.state →
      Honours C (Pool.advance M i e c) ∧ P (Pool.advance M i e c).state := by
    rintro i e c - hcond ⟨hc, hs⟩
    exact honours_advance hC (hP i) (hstep i e c hcond) hc hs
  exact Pool.runSchedule_preserves (K := fun c => Honours C c ∧ P c.state) hkeep schedule c
    (fun _ _ => trivial) halong ⟨hc, hs⟩

end VaultProofs.SharedPrograms
