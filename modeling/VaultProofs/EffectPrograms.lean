import Mathlib.Tactic.Common

/-!
Programs over an interface of operations. A program returns, or performs one operation and continues
with its answer, so it can be run in one go against a state or advanced one operation at a time.
-/

namespace VaultProofs.EffectPrograms

/-- The operations a program may perform, with the types of their answers. -/
structure Interface where
  Op : Type
  Answer : Op → Type

inductive Prog (I : Interface) (α : Type) where
  | ret (value : α)
  | call (op : I.Op) (next : I.Answer op → Prog I α)

namespace Prog

variable {I : Interface} {α β γ σ : Type}

def bind : Prog I α → (α → Prog I β) → Prog I β
  | .ret value, f => f value
  | .call op next, f => .call op fun answer => (next answer).bind f

instance : Monad (Prog I) where
  pure := .ret
  bind := bind

def perform (op : I.Op) : Prog I (I.Answer op) :=
  .call op .ret

@[simp] theorem pure_eq_ret (value : α) : (pure value : Prog I α) = .ret value := rfl

@[simp] theorem call_bind (op : I.Op) (next : I.Answer op → Prog I α)
    (f : α → Prog I β) :
    (Prog.call op next >>= f) = .call op fun answer => next answer >>= f := rfl

@[simp] theorem perform_bind (op : I.Op) (f : I.Answer op → Prog I β) :
    (perform op >>= f) = .call op f := rfl

def run (exec : (op : I.Op) → σ → I.Answer op × σ) : Prog I α → σ → α × σ
  | .ret value, s => (value, s)
  | .call op next, s => run exec (next (exec op s).1) (exec op s).2

section

variable (exec : (op : I.Op) → σ → I.Answer op × σ)

@[simp] theorem run_ret (value : α) (s : σ) : run exec (.ret value) s = (value, s) := rfl

@[simp] theorem run_call (op : I.Op) (next : I.Answer op → Prog I α) (s : σ) :
    run exec (.call op next) s = run exec (next (exec op s).1) (exec op s).2 := rfl

theorem run_bind (p : Prog I α) (f : α → Prog I β) (s : σ) :
    run exec (p >>= f) s = run exec (f (run exec p s).1) (run exec p s).2 := by
  induction p generalizing s with
  | ret value => rfl
  | call op next ih =>
    exact ih _ _

end

/-- Whatever the answers, the program performs only operations in `ok` and
returns only values in `post`. -/
def Performs (ok : I.Op → Prop) (post : α → Prop) : Prog I α → Prop
  | .ret value => post value
  | .call op next => ok op ∧ ∀ answer, Performs ok post (next answer)

variable {ok : I.Op → Prop} {post : α → Prop}

theorem performs_perform {final : β → Prop} {op : I.Op} {f : I.Answer op → Prog I β}
    (hop : ok op) (hf : ∀ answer, Performs ok final (f answer)) :
    Performs ok final (perform op >>= f) := ⟨hop, hf⟩

variable {p : Prog I α}

theorem performs_bind {mid : α → Prop} {final : β → Prop} {f : α → Prog I β}
    (hp : Performs ok mid p) (hf : ∀ value, mid value → Performs ok final (f value)) :
    Performs ok final (p >>= f) := by
  induction p with
  | ret value => exact hf value hp
  | call op next ih =>
    obtain ⟨hop, hnext⟩ := hp
    exact ⟨hop, fun answer => ih answer (hnext answer)⟩

theorem Performs.mono {ok' : I.Op → Prop} {post' : α → Prop} (hok : ∀ op, ok op → ok' op)
    (hpost : ∀ value, post value → post' value) (hp : p.Performs ok post) :
    p.Performs ok' post' := by
  induction p with
  | ret value => exact hpost value hp
  | call op next ih => exact ⟨hok op hp.1, fun answer => ih answer (hp.2 answer)⟩

def RunPerforms (exec : (op : I.Op) → σ → I.Answer op × σ) (ok : I.Op → Prop) :
    Prog I α → σ → Prop
  | .ret _, _ => True
  | .call op next, s => ok op ∧ RunPerforms exec ok (next (exec op s).1) (exec op s).2

variable {exec : (op : I.Op) → σ → I.Answer op × σ}

variable {s : σ}

theorem runPerforms_bind {f : α → Prog I β} : RunPerforms exec ok (p >>= f) s ↔
      RunPerforms exec ok p s ∧ RunPerforms exec ok (f (p.run exec s).1) (p.run exec s).2 := by
  induction p generalizing s with
  | ret value => exact (true_and _).to_iff.symm
  | call op next ih =>
    simp only [call_bind, RunPerforms, run_call, and_assoc]
    exact and_congr_right fun _ => ih _

theorem RunPerforms.mono {ok' : I.Op → Prop} (hok : ∀ op, ok op → ok' op)
    (hp : p.RunPerforms exec ok s) : p.RunPerforms exec ok' s := by
  induction p generalizing s with
  | ret value => trivial
  | call op next ih => exact ⟨hok op hp.1, ih _ hp.2⟩

theorem Performs.runPerforms (hp : p.Performs ok post) (s : σ) : p.RunPerforms exec ok s := by
  induction p generalizing s with
  | ret value => trivial
  | call op next ih => exact ⟨hp.1, ih _ (hp.2 _) _⟩

theorem Performs.run_post (hp : p.Performs ok post) (s : σ) : post (p.run exec s).1 := by
  induction p generalizing s with
  | ret value => exact hp
  | call op next ih => exact ih _ (hp.2 _) _

theorem RunPerforms.run_keeps {K : σ → Prop} (hstep : ∀ op s, ok op → K s → K (exec op s).2)
    (hp : p.RunPerforms exec ok s) (hs : K s) : K (p.run exec s).2 := by
  induction p generalizing s with
  | ret value => exact hs
  | call op next ih => exact ih _ hp.2 (hstep op s hp.1 hs)

theorem RunPerforms.run_congr {exec' : (op : I.Op) → σ → I.Answer op × σ}
    (hexec : ∀ op s, ok op → exec op s = exec' op s) (hp : p.RunPerforms exec ok s) :
    p.run exec s = p.run exec' s := by
  induction p generalizing s with
  | ret value => rfl
  | call op next ih =>
    rw [run_call, run_call, ih _ hp.2, hexec op s hp.1]

end Prog

/-- An automaton over operations and answers. `admits` restricts the answers of the environment,
`step` lists the moves. -/
structure Protocol (I : Interface) (Q : Type) where
  admits : (op : I.Op) → I.Answer op → Prop
  step : Q → (op : I.Op) → I.Answer op → Q → Prop

namespace Protocol

variable {I : Interface} {Q α β σ : Type}

/-- Every operation is a move of the automaton, and the program returns only in states that allow
the value. -/
def Follows (P : Protocol I Q) (final : Q → α → Prop) : Q → Prog I α → Prop
  | q, .ret value => final q value
  | q, .call op next => ∀ answer, P.admits op answer →
      ∃ q', P.step q op answer q' ∧ Follows P final q' (next answer)

variable {P : Protocol I Q} {final : Q → β → Prop}

variable {q : Q}

theorem follows_bind {p : Prog I α} {f : α → Prog I β} : P.Follows final q (p >>= f) ↔
      P.Follows (fun q' value => P.Follows final q' (f value)) q p := by
  induction p generalizing q with
  | ret value => rfl
  | call op next ih => simp only [Prog.call_bind, Follows, ih]

theorem Follows.mono {final' : Q → β → Prop} (hfinal : ∀ q value, final q value → final' q value)
    {p : Prog I β} (hp : P.Follows final q p) : P.Follows final' q p := by
  induction p generalizing q with
  | ret value => exact hfinal q value hp
  | call op next ih =>
    intro answer hanswer
    obtain ⟨q', hstep, hnext⟩ := hp answer hanswer
    exact ⟨q', hstep, ih answer hnext⟩

end Protocol

theorem bind_eq_ok {ε α β : Type} {x : Except ε α} {f : α → Except ε β} {b : β} :
    x >>= f = .ok b ↔ ∃ a, x = .ok a ∧ f a = .ok b := by
  cases x with
  | error e | ok a => simp [bind, Except.bind]

end VaultProofs.EffectPrograms
