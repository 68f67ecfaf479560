import VaultProofs.ProgramOutcomes

/-!
Programs that may stop with an error and follow a protocol. It is obeyed whatever the admitted
answers are, so a program can be described before it runs together with others.
-/

namespace VaultProofs.ProgramProtocols

open EffectPrograms ProgramOutcomes

variable {I : Interface} {Q α β ε : Type} {P : Protocol I Q}

/-- From the phase `q` on the program follows the protocol, and returns as `ok` says or stops as
`err` says. -/
def Obeys (P : Protocol I Q) (x : Fallible ε I α) (q : Q) (ok : α → Q → Prop)
    (err : Q → Prop) : Prop :=
  Finishes (protocolLogic P) x q ok fun _ => err

variable {f : α → Fallible ε I β}

variable {q : Q} {ok : α → Q → Prop} {err : Q → Prop} {done : β → Q → Prop}

theorem obeys_pure {value : α} :
    Obeys P (pure value : Fallible ε I α) q ok err ↔ ok value q := Iff.rfl

variable {x : Fallible ε I α}

theorem obeys_bind : Obeys P (x >>= f) q done err ↔
      Obeys P x q (fun value q' => Obeys P (f value) q' done err) err :=
  finishes_bind

theorem Obeys.mono {ok' : α → Q → Prop} {err' : Q → Prop} (h : Obeys P x q ok err)
    (hok : ∀ value q', ok value q' → ok' value q')
    (herr : ∀ q', err q' → err' q') : Obeys P x q ok' err' :=
  Finishes.mono h hok fun _ => herr

theorem Obeys.imp {ok' : α → Q → Prop} (h : Obeys P x q ok err)
    (hok : ∀ value q', ok value q' → ok' value q') : Obeys P x q ok' err :=
  h.mono hok fun _ h => h

theorem Obeys.bind (hx : Obeys P x q ok err)
    (hf : ∀ value q', ok value q' → Obeys P (f value) q' done err) :
    Obeys P (x >>= f) q done err :=
  obeys_bind.mpr (hx.imp hf)

theorem Obeys.mapError {ε' : Type} (hx : Obeys P x q ok err) (f : ε → ε') :
    Obeys P (mapError f x) q ok err :=
  finishes_mapError.mpr hx

theorem Obeys.capture (hx : Obeys P x q ok err) {stop : Q → Prop} :
    Obeys P (capture x) q (fun result q' => outcomePost ok (fun _ => err) result q') stop :=
  finishes_capture.mpr hx

/-- Started in a phase in `K` the program ends in one, with a value in `R`. -/
def Abides (P : Protocol I Q) (K : Q → Prop) (R : α → Prop) (x : Fallible ε I α) : Prop :=
  ∀ q, K q → Obeys P x q (fun value q' => K q' ∧ R value) K

variable {K : Q → Prop} {R : α → Prop} {S : β → Prop}

theorem abides_pure {value : α} : Abides P K (fun _ => True) (pure value : Fallible ε I α) :=
  keeps_pure trivial

theorem abides_throw (e : ε) : Abides P K R (throw e : Fallible ε I α) :=
  keeps_throw fun _ hq => hq

theorem Abides.bind (hx : Abides P K R x)
    (hf : ∀ value, R value → Abides P K S (f value)) : Abides P K S (x >>= f) :=
  Keeps.bind hx hf

theorem Abides.then (hx : Abides P K (fun _ => True) x)
    (hf : ∀ value, Abides P K S (f value)) :
    Abides P K S (x >>= f) :=
  Keeps.then hx hf

theorem Abides.weaken {R' : α → Prop} (hx : Abides P K R x) (h : ∀ value, R value → R' value) :
    Abides P K R' x :=
  Keeps.weaken hx h

theorem Abides.mapError {ε' : Type} (hx : Abides P K R x) (f : ε → ε') :
    Abides P K R (mapError f x) :=
  Keeps.mapError hx f

theorem Abides.attempt (hx : Abides P K R x) :
    Abides P K (fun _ => True) (ProgramOutcomes.capture x) :=
  Keeps.attempt hx

theorem abides_resume {result : Except ε α} (h : ∀ value, result = .ok value → R value) :
    Abides P K R (resume result : Fallible ε I α) :=
  keeps_resume h fun _ hq => hq

theorem abides_ite {c : Prop} [Decidable c] {x y : Fallible ε I α} (hx : c → Abides P K R x)
    (hy : ¬ c → Abides P K R y) : Abides P K R (if c then x else y) :=
  keeps_ite hx hy

end VaultProofs.ProgramProtocols
