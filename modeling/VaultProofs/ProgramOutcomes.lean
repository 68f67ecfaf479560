import VaultProofs.EffectPrograms

/-!
Programs whose operations may come out in several ways: they may fail, read a clock, or meet what
others did. A logic says what each operation may lead to, and so what a program finishes with.
-/

namespace VaultProofs.ProgramOutcomes

open EffectPrograms

variable {I : Interface} {α β ε E σ : Type}

/-- What has to hold before an operation for a condition to hold of its answer and the state after
it. -/
structure Logic (I : Interface) (σ : Type) where
  wp : (op : I.Op) → (I.Answer op → σ → Prop) → σ → Prop
  mono : ∀ {op : I.Op} {k k' : I.Answer op → σ → Prop} {s : σ},
    (∀ answer s', k answer s' → k' answer s') → wp op k s → wp op k' s

abbrev Outcomes (I : Interface) (σ : Type) :=
  (op : I.Op) → σ → I.Answer op → σ → Prop

/-- However the operation comes out. -/
def allOutcomes (R : Outcomes I σ) : Logic I σ where
  wp op k s := ∀ answer s', R op s answer s' → k answer s'
  mono hk h := fun answer s' hR => hk answer s' (h answer s' hR)

/-- Whatever the admitted answer is, the protocol has a move. -/
def protocolLogic (P : Protocol I σ) : Logic I σ where
  wp op k q := ∀ answer, P.admits op answer → ∃ q', P.step q op answer q' ∧ k answer q'
  mono hk h := fun answer hanswer =>
    let ⟨q', hstep, hq'⟩ := h answer hanswer
    ⟨q', hstep, hk answer q' hq'⟩

def Ends (L : Logic I σ) (post : α → σ → Prop) : Prog I α → σ → Prop
  | .ret value, s => post value s
  | .call op next, s => L.wp op (fun answer s' => Ends L post (next answer) s') s

variable {L : Logic I σ} {p : Prog I α} {s : σ}

theorem ends_bind {post : β → σ → Prop} {f : α → Prog I β} :
    Ends L post (p >>= f) s ↔ Ends L (fun value s' => Ends L post (f value) s') p s := by
  induction p generalizing s with
  | ret value => rfl
  | call op next ih => simp only [Prog.call_bind, Ends, ih]

theorem Ends.mono {post post' : α → σ → Prop} (h : Ends L post p s)
    (hpost : ∀ value s', post value s' → post' value s') :
    Ends L post' p s := by
  induction p generalizing s with
  | ret value => exact hpost value s h
  | call op next ih => exact L.mono (fun answer _ hnext => ih answer hnext) h

theorem ends_congr {post post' : α → σ → Prop} (h : ∀ value s', post value s' ↔ post' value s') :
    Ends L post p s ↔ Ends L post' p s :=
  ⟨fun hp => hp.mono fun value s' => (h value s').mp,
    fun hp => hp.mono fun value s' => (h value s').mpr⟩

theorem Ends.follows {P : Protocol I σ} {post : α → σ → Prop} {q : σ}
    (h : Ends (protocolLogic P) post p q) : P.Follows (fun q' value => post value q') q p := by
  induction p generalizing q with
  | ret value => exact h
  | call op next ih =>
    intro answer hanswer
    obtain ⟨q', hstep, hnext⟩ := h answer hanswer
    exact ⟨q', hstep, ih answer hnext⟩

/-- A program that may stop with an error. -/
abbrev Fallible (ε : Type) (I : Interface) := ExceptT ε (Prog I)

def outcomePost (ok : α → σ → Prop) (err : ε → σ → Prop) : Except ε α → σ → Prop
  | .ok value, s => ok value s
  | .error e, s => err e s

/-- However its operations come out, the program returns as `ok` says or stops as
`err` says. -/
def Finishes (L : Logic I σ) (x : Fallible ε I α) (s : σ) (ok : α → σ → Prop)
    (err : ε → σ → Prop) : Prop :=
  Ends L (outcomePost ok err) x.run s

/-- The postcondition of a stop that does not happen. -/
def never (_ : ε) (_ : σ) : Prop := False

def capture (x : Fallible ε I α) : Fallible ε I (Except ε α) :=
  ExceptT.mk (x.run >>= fun result => pure (.ok result))

def resume (result : Except ε α) : Fallible ε I α :=
  ExceptT.mk (pure result)

def mapError {ε' : Type} (f : ε → ε') (x : Fallible ε I α) : Fallible ε' I α :=
  ExceptT.mk (x.run >>= fun result => pure (result.mapError f))

variable {ok : α → σ → Prop} {err : ε → σ → Prop}

theorem finishes_pure {value : α} :
    Finishes L (pure value : Fallible ε I α) s ok err ↔ ok value s := Iff.rfl

theorem finishes_throw {e : ε} : Finishes L (throw e : Fallible ε I α) s ok err ↔ err e s := Iff.rfl

theorem finishes_resume {result : Except ε α} :
    Finishes L (resume result : Fallible ε I α) s ok err ↔ outcomePost ok err result s := Iff.rfl

variable {x : Fallible ε I α} {f : α → Fallible ε I β}

theorem finishes_bind {done : β → σ → Prop} :
    Finishes L (x >>= f) s done err ↔
      Finishes L x s (fun value s' => Finishes L (f value) s' done err) err := by
  have hrun : (x >>= f).run = x.run >>= ExceptT.bindCont f := rfl
  rw [Finishes, hrun, ends_bind, Finishes]
  refine ends_congr ?_
  rintro (e | value) s'
  · rfl
  · rfl

theorem Finishes.mono {ok' : α → σ → Prop} {err' : ε → σ → Prop} (h : Finishes L x s ok err)
    (hok : ∀ value s', ok value s' → ok' value s')
    (herr : ∀ e s', err e s' → err' e s') : Finishes L x s ok' err' := by
  refine Ends.mono h ?_
  rintro (e | value) s' hs'
  · exact herr e s' hs'
  · exact hok value s' hs'

theorem Finishes.imp {ok' : α → σ → Prop} (h : Finishes L x s ok err)
    (hok : ∀ value s', ok value s' → ok' value s') : Finishes L x s ok' err :=
  h.mono hok fun _ _ he => he

theorem finishes_congr {err' : ε → σ → Prop} (h : ∀ e s', err e s' ↔ err' e s') :
    Finishes L x s ok err ↔ Finishes L x s ok err' := by
  refine ends_congr ?_
  rintro (e | value) s'
  · exact h e s'
  · rfl

theorem Finishes.bind {done : β → σ → Prop} (hx : Finishes L x s ok err)
    (hf : ∀ value s', ok value s' → Finishes L (f value) s' done err) :
    Finishes L (x >>= f) s done err :=
  finishes_bind.mpr (hx.imp hf)

theorem finishes_mapError {ε' : Type} {err' : ε' → σ → Prop} {f : ε → ε'} :
    Finishes L (mapError f x) s ok err' ↔ Finishes L x s ok fun e s' => err' (f e) s' := by
  rw [Finishes, mapError, ExceptT.run_mk, ends_bind, Finishes]
  refine ends_congr ?_
  rintro (e | value) s'
  · rfl
  · rfl

theorem finishes_capture {done : Except ε α → σ → Prop} :
    Finishes L (capture x) s done err ↔
      Finishes L x s (fun value s' => done (.ok value) s') fun e s' => done (.error e) s' := by
  rw [Finishes, capture, ExceptT.run_mk, ends_bind, Finishes]
  refine ends_congr ?_
  rintro (e | value) s'
  · rfl
  · rfl

/-- Started in `K`, the program returns in `K` with a value in `Q`, or stops in `E`. -/
def Keeps (L : Logic I σ) (K E : σ → Prop) (Q : α → Prop) (x : Fallible ε I α) : Prop :=
  ∀ s, K s → Finishes L x s (fun value s' => K s' ∧ Q value) fun _ s' => E s'

variable {K F : σ → Prop} {Q : α → Prop} {P : β → Prop}

theorem keeps_pure {value : α} (h : Q value) : Keeps L K F Q (pure value : Fallible ε I α) :=
  fun _ hs => ⟨hs, h⟩

theorem keeps_throw {e : ε} (h : ∀ s, K s → F s) : Keeps L K F Q (throw e : Fallible ε I α) :=
  h

theorem keeps_resume {result : Except ε α} (hok : ∀ value, result = .ok value → Q value)
    (herr : ∀ s, K s → F s) : Keeps L K F Q (resume result : Fallible ε I α) := by
  intro s hs
  cases result with
  | ok value => exact ⟨hs, hok value rfl⟩
  | error e => exact herr s hs

theorem Keeps.bind (hx : Keeps L K F Q x) (hf : ∀ value, Q value → Keeps L K F P (f value)) :
    Keeps L K F P (x >>= f) :=
  fun s hs => (hx s hs).bind fun value s' h => hf value h.2 s' h.1

theorem Keeps.lax (hx : Keeps L K F Q x) (hs : K s) :
    Finishes L x s (fun value s' => K s' ∧ Q value) fun _ _ => True :=
  (hx s hs).mono (fun _ _ h => h) fun _ _ _ => trivial

theorem Keeps.then (hx : Keeps L K F (fun _ => True) x) (hf : ∀ value, Keeps L K F P (f value)) :
    Keeps L K F P (x >>= f) :=
  hx.bind fun value _ => hf value

theorem Keeps.weaken {Q' : α → Prop} (hx : Keeps L K F Q x) (h : ∀ value, Q value → Q' value) :
    Keeps L K F Q' x :=
  fun s hs => (hx s hs).imp fun value _ hvalue => ⟨hvalue.1, h value hvalue.2⟩

theorem Keeps.onError {F' : σ → Prop} (hx : Keeps L K F Q x) (h : ∀ s, F s → F' s) :
    Keeps L K F' Q x :=
  fun s hs => (hx s hs).mono (fun _ _ hvalue => hvalue) fun _ s' => h s'

theorem keeps_ite {c : Prop} [Decidable c] {x y : Fallible ε I α} (hx : c → Keeps L K F Q x)
    (hy : ¬ c → Keeps L K F Q y) : Keeps L K F Q (if c then x else y) := by
  split
  · rename_i h
    exact hx h
  · rename_i h
    exact hy h

theorem Keeps.mapError {ε' : Type} (hx : Keeps L K F Q x) (f : ε → ε') :
    Keeps L K F Q (mapError f x) :=
  fun s hs => finishes_mapError.mpr (hx s hs)

theorem Keeps.capture (hx : Keeps L K K Q x) :
    Keeps L K F (fun result => ∀ value, result = .ok value → Q value) (capture x) := by
  intro s hs
  rw [finishes_capture]
  refine (hx s hs).mono (fun value s' h => ?_) fun e s' h => ⟨h, fun _ heq => by cases heq⟩
  exact ⟨h.1, fun _ heq => by cases heq; exact h.2⟩

theorem Keeps.attempt (hx : Keeps L K K Q x) :
    Keeps L K F (fun _ => True) (ProgramOutcomes.capture x) :=
  hx.capture.weaken fun _ _ => trivial

theorem Keeps.capture_bind {f : Except ε α → Fallible ε I β} (hx : Keeps L K F Q x)
    (hok : ∀ value, Q value → Keeps L K F P (f (.ok value)))
    (herr : ∀ e s, F s → Finishes L (f (.error e)) s (fun value s' => K s' ∧ P value)
      fun _ s' => F s') :
    Keeps L K F P (ProgramOutcomes.capture x >>= f) := by
  intro s hs
  rw [finishes_bind, finishes_capture]
  exact (hx s hs).mono (fun value s' h => hok value h.2 s' h.1) herr

/-- Answer the operations of a program from an environment that changes between operations. -/
def numbered (exec : E → (op : I.Op) → σ → I.Answer op × σ) (env : Nat → E) (op : I.Op)
    (s : σ × Nat) : I.Answer op × (σ × Nat) :=
  ((exec (env s.2) op s.1).1, ((exec (env s.2) op s.1).2, s.2 + 1))

def runFrom (exec : E → (op : I.Op) → σ → I.Answer op × σ) (env : Nat → E) (p : Prog I α)
    (s : σ) : α × σ :=
  ((p.run (numbered exec env) (s, 0)).1, (p.run (numbered exec env) (s, 0)).2.1)

section runs

variable {exec : E → (op : I.Op) → σ → I.Answer op × σ} {env : Nat → E} {R : Outcomes I σ}

variable {post : α → σ → Prop}

section

variable (hR : ∀ n op s, R op s (exec (env n) op s).1 (exec (env n) op s).2)
  (h : Ends (allOutcomes R) post p s)

include hR h

theorem Ends.run_numbered (n : Nat) :
    post (p.run (numbered exec env) (s, n)).1 (p.run (numbered exec env) (s, n)).2.1 := by
  induction p generalizing s n with
  | ret value => exact h
  | call op next ih => exact ih _ (h _ _ (hR n op s)) (n + 1)

theorem Ends.runFrom : post (runFrom exec env p s).1 (runFrom exec env p s).2 :=
  h.run_numbered hR 0

end

theorem Finishes.runFrom_ok (hR : ∀ n op s, R op s (exec (env n) op s).1 (exec (env n) op s).2)
    (h : Finishes (allOutcomes R) x s ok never) :
    ∃ value, (runFrom exec env x.run s).1 = .ok value ∧ ok value (runFrom exec env x.run s).2 := by
  have hpost := Ends.runFrom hR h
  cases hresult : (runFrom exec env x.run s).1 with
  | error e =>
    rw [hresult] at hpost
    exact hpost.elim
  | ok value =>
    rw [hresult] at hpost
    exact ⟨value, rfl, hpost⟩

theorem Finishes.run_error (hR : ∀ n op s, R op s (exec (env n) op s).1 (exec (env n) op s).2)
    {err : ε → σ → Prop} (h : Finishes (allOutcomes R) x s ok err) (n : Nat) {e : ε}
    (herror : (x.run.run (numbered exec env) (s, n)).1 = .error e) :
    err e (x.run.run (numbered exec env) (s, n)).2.1 := by
  have hpost := Ends.run_numbered hR h n
  rw [herror] at hpost
  exact hpost

/-- Every operation of the numbered run is `good` in its environment. -/
def RunMeets (exec : E → (op : I.Op) → σ → I.Answer op × σ) (env : Nat → E)
    (good : E → I.Op → Prop) : Prog I α → σ × Nat → Prop
  | .ret _, _ => True
  | .call op next, s => good (env s.2) op ∧
      RunMeets exec env good (next (numbered exec env op s).1) (numbered exec env op s).2

variable {good : E → I.Op → Prop}

theorem Ends.run_meets (hR : ∀ e op s, good e op → R op s (exec e op s).1 (exec e op s).2)
    (h : Ends (allOutcomes R) post p s) {n : Nat} (hmeets : RunMeets exec env good p (s, n)) :
    post (p.run (numbered exec env) (s, n)).1 (p.run (numbered exec env) (s, n)).2.1 := by
  induction p generalizing s n with
  | ret value => exact h
  | call op next ih => exact ih _ (h _ _ (hR (env n) op s hmeets.1)) hmeets.2

/-- The outcomes of operations, beside the claim that they all were good. -/
def watched (exec : E → (op : I.Op) → σ → I.Answer op × σ) (good : E → I.Op → Prop) :
    Logic I (σ × Prop) :=
  allOutcomes fun op s answer s' =>
    ∃ e : E, exec e op s.1 = (answer, s'.1) ∧ s'.2 = (s.2 ∧ good e op)

variable {b : Prop}

variable (env) in
theorem Ends.run_watched {post : α → σ × Prop → Prop} (h : Ends (watched exec good) post p (s, b))
    (n : Nat) :
    post (p.run (numbered exec env) (s, n)).1
      ((p.run (numbered exec env) (s, n)).2.1, b ∧ RunMeets exec env good p (s, n)) := by
  induction p generalizing s b n with
  | ret value =>
    rw [RunMeets, and_true]
    exact h
  | call op next ih =>
    rw [RunMeets, ← and_assoc]
    exact ih _ (h _ (_, b ∧ good (env n) op) ⟨env n, rfl, rfl⟩) (n + 1)

theorem Ends.unwatched (h : Ends (watched exec good) (fun value s' => post value s'.1) p (s, b)) :
    Ends (allOutcomes fun op s answer s' => ∃ e, exec e op s = (answer, s')) post p s := by
  induction p generalizing s b with
  | ret value => exact h
  | call op next ih =>
    rintro answer s' ⟨e, hexec⟩
    exact ih answer (h answer (s', b ∧ good e op) ⟨e, hexec, rfl⟩)

theorem Finishes.unwatched {err : ε → σ → Prop}
    (h : Finishes (watched exec good) x (s, b) (fun value s' => ok value s'.1)
      fun e s' => err e s'.1) :
    Finishes (allOutcomes fun op s answer s' => ∃ e, exec e op s = (answer, s')) x s ok err := by
  refine Ends.unwatched (Ends.mono h ?_)
  rintro (e | value) s' hs'
  · exact hs'
  · exact hs'

end runs

variable {step : (op : I.Op) → σ → I.Answer op × σ}

theorem run_bind_ok {value : α} (h : (x.run.run step s).1 = .ok value) :
    (x >>= f).run.run step s = (f value).run.run step (x.run.run step s).2 := by
  have hrun : (x >>= f).run = x.run >>= ExceptT.bindCont f := rfl
  rw [hrun, Prog.run_bind, h]
  rfl

theorem run_bind_error {e : ε} (h : (x.run.run step s).1 = .error e) :
    (x >>= f).run.run step s = (.error e, (x.run.run step s).2) := by
  have hrun : (x >>= f).run = x.run >>= ExceptT.bindCont f := rfl
  rw [hrun, Prog.run_bind, h]
  rfl

end VaultProofs.ProgramOutcomes
