/-
Programs that read and write a block store, and what a power failure between two of their writes
leaves. A recovery program is run after each failure, and may itself be cut short by the next one, any
number of times, until it completes.
-/
import Mathlib.Logic.Function.Basic
import Mathlib.Tactic

namespace Crash

variable {A V : Type} {R S : Type}

/-- A program over a store that maps addresses `A` to values `V`. -/
inductive Prog (A V R : Type)
  | ret (r : R)
  | read (a : A) (k : V → Prog A V R)
  | write (a : A) (v : V) (k : Prog A V R)

namespace Prog

def bind : Prog A V R → (R → Prog A V S) → Prog A V S
  | ret r, f => f r
  | read a k, f => read a fun v => (k v).bind f
  | write a v k, f => write a v (k.bind f)

/-- Do `f` for each element of a list in turn. -/
def each {T : Type} (f : T → Prog A V Unit) : List T → Prog A V Unit
  | [] => ret ()
  | t :: ts => (f t).bind fun _ => each f ts

instance : Monad (Prog A V) where
  pure := ret
  bind := bind

variable [DecidableEq A]

/-- The result of a program and the store it leaves when nothing fails. -/
def run : Prog A V R → (A → V) → R × (A → V)
  | ret r, d => (r, d)
  | read a k, d => (k (d a)).run d
  | write a v k, d => k.run (Function.update d a v)

/-- `d'` is the store that a failure at some point of the program leaves. -/
inductive Cut : Prog A V R → (A → V) → (A → V) → Prop
  | here (p d) : Cut p d d
  | read {a k d d'} : Cut (k (d a)) d d' → Cut (.read a k) d d'
  | write {a v k d d'} : Cut k (Function.update d a v) d' → Cut (.write a v k) d d'

variable {p : Prog A V R} {f : R → Prog A V S} {d d' : A → V}

theorem run_bind : ∀ (p : Prog A V R) (d : A → V), (p.bind f).run d = (f (p.run d).1).run (p.run d).2
  | ret _, _ => rfl
  | read a k, d => run_bind (k (d a)) d
  | write a v k, d => run_bind k (Function.update d a v)

/-- A sequence fails in its first part, or in its second after the first has completed. -/
theorem Cut.bind_cases : ∀ {p : Prog A V R} {d : A → V}, Cut (p.bind f) d d' →
    Cut p d d' ∨ Cut (f (p.run d).1) (p.run d).2 d'
  | ret _, _, h => .inr h
  | .read a k, d, h => by
    cases h with
    | here => exact .inl (.here _ _)
    | read h => exact (bind_cases h).imp .read id
  | .write a v k, d, h => by
    cases h with
    | here => exact .inl (.here _ _)
    | write h => exact (bind_cases h).imp .write id

/-- A program that completes has been cut at its end. -/
theorem cut_run : ∀ (p : Prog A V R) (d : A → V), Cut p d (p.run d).2
  | ret _, _ => .here _ _
  | read a k, d => .read (cut_run (k (d a)) d)
  | write a v k, d => .write (cut_run k (Function.update d a v))

/-- What no cut of a round changes holds wherever the loop is cut. -/
theorem Cut.each {T : Type} {g : T → Prog A V Unit} {I : (A → V) → Prop} :
    ∀ {l : List T} {d d' : A → V}, (∀ t ∈ l, ∀ d d', I d → Cut (g t) d d' → I d') → I d → Cut (each g l) d d' → I d'
  | [], _, _, _, hi, h => by cases h; exact hi
  | t :: ts, d, d', hcut, hi, h => by
    rcases h.bind_cases with h | h
    · exact hcut t (by simp) d d' hi h
    · exact Cut.each (fun u hu => hcut u (by simp [hu])) (hcut t (by simp) _ _ hi (cut_run _ _)) h

/-- A loop that completes has brought each of its elements from to do to done. -/
theorem run_each {T : Type} {g : T → Prog A V Unit} {I : List T → (A → V) → Prop} :
    ∀ {l : List T} {d : A → V}, (∀ t ts d, t ∈ l → I (t :: ts) d → I ts ((g t).run d).2) → I l d →
      I [] ((Prog.each g l).run d).2
  | [], _, _, hi => hi
  | t :: ts, d, hrun, hi => by
    rw [Prog.each, run_bind]
    exact run_each (fun u us d hu => hrun u us d (by simp [hu])) (hrun t ts d (by simp) hi)

end Prog

variable [DecidableEq A]

/-- Recovery is started, is cut short any number of times, and completes in the end. -/
inductive Recovers (p : Prog A V Unit) : (A → V) → (A → V) → Prop
  | completes (d) : Recovers p d (p.run d).2
  | again {d d₁ d₂} : p.Cut d d₁ → Recovers p d₁ d₂ → Recovers p d d₂

/-- What every failed recovery keeps, and a completed one turns into `Q`. -/
theorem Recovers.post {p : Prog A V Unit} {I Q : (A → V) → Prop} (hcut : ∀ d d', I d → p.Cut d d' → I d')
    (hrun : ∀ d, I d → Q (p.run d).2) {d d' : A → V} (hi : I d) (h : Recovers p d d') : Q d' := by
  induction h with
  | completes d => exact hrun d hi
  | again hc _ ih => exact ih (hcut _ _ hi hc)

end Crash
