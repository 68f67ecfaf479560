import VaultProofs.RunHistories

/-!
Calls that take turns on one store.
-/

namespace VaultProofs.RacingCalls

variable {σ κ ε : Type}

structure Race (σ κ : Type) where
  store : σ
  calls : List κ

/-- A call takes its next step with what its environment gives it. -/
def turn (next : ε → κ → σ → κ × σ) (s : Race σ κ) (e : Nat × ε) : Race σ κ :=
  match s.calls[e.1]? with
  | none => s
  | some call =>
    let (call, store) := next e.2 call s.store
    ⟨store, s.calls.set e.1 call⟩

/-- One call at most is where `p` holds. -/
def Alone (p : κ → Prop) (calls : List κ) : Prop :=
  ∀ (i j : Nat) a b, calls[i]? = some a → calls[j]? = some b → p a → p b → i = j

theorem turn_keeps {next : ε → κ → σ → κ × σ} {K : Race σ κ → Prop} {s : Race σ κ} {e : Nat × ε}
    (h : ∀ call, s.calls[e.1]? = some call →
      K ⟨(next e.2 call s.store).2, s.calls.set e.1 (next e.2 call s.store).1⟩)
    (hs : K s) : K (turn next s e) := by
  rw [turn]
  split
  · exact hs
  · rename_i call hcall
    exact h call hcall

end VaultProofs.RacingCalls
