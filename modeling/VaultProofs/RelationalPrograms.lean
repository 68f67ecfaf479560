import VaultProofs.EffectPrograms

/-!
Two runs side by side. Programs are coupled if from related states they return related values and
end in related states.
-/

namespace VaultProofs.RelationalPrograms

open EffectPrograms

variable {I : Interface} {α β γ δ σ : Type}

def Coupled (exec : (op : I.Op) → σ → I.Answer op × σ) (W : σ → σ → Prop) (Q : α → β → Prop)
    (p : Prog I α) (q : Prog I β) : Prop :=
  ∀ s t, W s t →
    Q (p.run exec s).1 (q.run exec t).1 ∧ W (p.run exec s).2 (q.run exec t).2

variable {exec : (op : I.Op) → σ → I.Answer op × σ} {W : σ → σ → Prop}

variable {Q : α → β → Prop}

theorem coupled_ret {a : α} {b : β} (h : Q a b) : Coupled exec W Q (.ret a) (.ret b) := by
  intro s t hW
  exact ⟨h, hW⟩

theorem coupled_refl {a : α} : Coupled exec W Eq (.ret a) (.ret a) :=
  coupled_ret rfl

theorem Coupled.bind {R : γ → δ → Prop} {p : Prog I α} {q : Prog I β} {f : α → Prog I γ}
    {g : β → Prog I δ} (hp : Coupled exec W Q p q)
    (hf : ∀ a b, Q a b → Coupled exec W R (f a) (g b)) :
    Coupled exec W R (p >>= f) (q >>= g) := by
  intro s t hW
  obtain ⟨hvalue, hstate⟩ := hp s t hW
  rw [Prog.run_bind, Prog.run_bind]
  exact hf _ _ hvalue _ _ hstate

theorem Coupled.bind_same {R : γ → δ → Prop} {p q : Prog I α} {f : α → Prog I γ}
    {g : α → Prog I δ} (hp : Coupled exec W Eq p q) (hf : ∀ a, Coupled exec W R (f a) (g a)) :
    Coupled exec W R (p >>= f) (q >>= g) := by
  refine hp.bind ?_
  rintro a _ rfl
  exact hf a

theorem coupled_ite {c : Prop} [Decidable c] {p p' : Prog I α} {q q' : Prog I β}
    (hpos : Coupled exec W Q p q) (hneg : Coupled exec W Q p' q') :
    Coupled exec W Q (if c then p else p') (if c then q else q') := by
  split
  · exact hpos
  · exact hneg

theorem coupled_of_performs {ok : I.Op → Prop} {post : α → Prop}
    (hok : ∀ op, ok op → Coupled exec W Eq (Prog.perform op) (Prog.perform op))
    {p : Prog I α} (hp : p.Performs ok post) : Coupled exec W Eq p p := by
  induction p with
  | ret value => exact coupled_refl
  | call op next ih =>
    intro s t hW
    obtain ⟨hanswer, hstate⟩ := hok op hp.1 s t hW
    have hnext := ih (exec op s).1 (hp.2 _) _ _ hstate
    simp only [Prog.perform, Prog.run_call, Prog.run_ret] at hanswer hnext
    rw [Prog.run_call, Prog.run_call, ← hanswer]
    exact hnext

end VaultProofs.RelationalPrograms
