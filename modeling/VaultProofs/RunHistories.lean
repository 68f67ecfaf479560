import Mathlib.Data.List.Induction

/-!
Histories of a deterministic machine. A history is the list of the actions so far, and the state is
what they lead to; an action is looked at with the history before it.
-/

namespace VaultProofs.RunHistories

variable {S A : Type} {step : S → A → S} {init : S}

def final (step : S → A → S) (init : S) (history : List A) : S :=
  history.foldl step init

@[simp] theorem final_concat (history : List A) (action : A) :
    final step init (history ++ [action]) = step (final step init history) action := by
  simp [final]

/-- The action was taken after the history `before`. -/
def Occurs (before : List A) (action : A) (history : List A) : Prop :=
  ∃ later, history = before ++ action :: later

theorem occurs_concat_self (history : List A) (action : A) :
    Occurs history action (history ++ [action]) := ⟨[], rfl⟩

variable {action : A} {history : List A}

theorem Occurs.concat {before : List A} (h : Occurs before action history) (next : A) :
    Occurs before action (history ++ [next]) := by
  obtain ⟨later, rfl⟩ := h
  exact ⟨later ++ [next], by simp⟩

theorem Occurs.mem {before : List A} (h : Occurs before action history) : action ∈ history := by
  obtain ⟨later, rfl⟩ := h
  simp

/-- Every action of the history is in `cond` with the history before it. -/
def Throughout (cond : List A → A → Prop) (history : List A) : Prop :=
  ∀ before action, Occurs before action history → cond before action

variable {cond : List A → A → Prop}

theorem throughout_nil : Throughout cond [] := by
  rintro before action ⟨later, hlater⟩
  cases before <;> cases hlater

theorem Throughout.of_append {later : List A} (h : Throughout cond (history ++ later)) :
    Throughout cond history := by
  rintro before action ⟨rest, rfl⟩
  exact h before action ⟨rest ++ later, by simp⟩

theorem Throughout.last (h : Throughout cond (history ++ [action])) : cond history action :=
  h history action (occurs_concat_self history action)

theorem Throughout.concat (h : Throughout cond history)
    (hlast : cond history action) : Throughout cond (history ++ [action]) := by
  rintro before next ⟨later, hlater⟩
  rcases List.eq_nil_or_concat later with rfl | ⟨later, last, rfl⟩
  · obtain ⟨rfl, hnext⟩ := List.append_inj' hlater rfl
    cases hnext
    exact hlast
  · rw [List.concat_eq_append, ← List.cons_append, ← List.append_assoc] at hlater
    exact h before next ⟨later, (List.append_inj' hlater rfl).1⟩

/-- What holds at the start and is kept by every action holds after every history. -/
theorem final_induction {K : List A → S → Prop} (hinit : K [] init)
    (hstep : ∀ history action, K history (final step init history) →
      K (history ++ [action]) (step (final step init history) action))
    (history : List A) : K history (final step init history) := by
  induction history using List.reverseRecOn with
  | nil => exact hinit
  | append_singleton history action ih =>
    rw [final_concat]
    exact hstep history action ih

variable (step) (allowed : S → A → Prop)

/-- Every action is allowed in the state in which it is taken. -/
def Orderly : S → List A → Prop
  | _, [] => True
  | s, action :: history => allowed s action ∧ Orderly (step s action) history

instance decidableOrderly [∀ s action, Decidable (allowed s action)] :
    ∀ s history, Decidable (Orderly step allowed s history)
  | _, [] => isTrue trivial
  | s, action :: history =>
    have := decidableOrderly (step s action) history
    inferInstanceAs (Decidable (_ ∧ _))

variable {step allowed}

/-- What every allowed action keeps is kept by every orderly history. -/
theorem Orderly.keeps {K : S → Prop} (hstep : ∀ s action, K s → allowed s action → K (step s action))
    {s : S} (hrun : Orderly step allowed s history) (hs : K s) :
    K (final step s history) := by
  induction history generalizing s with
  | nil => exact hs
  | cons action history ih => exact ih hrun.2 (hstep s action hs hrun.1)

end VaultProofs.RunHistories
