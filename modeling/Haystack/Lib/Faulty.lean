import Mathlib.Tactic

/-!
# Programs whose steps may fail

A program works on a durable state. Each of its steps succeeds, reports an error, or is the point at
which the process dies; a process that dies leaves the durable state as it is.
-/

namespace Faulty

/-- How one step ends. -/
inductive Outcome
  | ok
  | err
  | crash
  deriving DecidableEq

/-- How a program ends, with the durable state it leaves. -/
inductive Ran (δ α : Type)
  | returned (a : α) (d : δ)
  | died (d : δ)

variable {δ α β : Type} {a : α}

def Ran.state : Ran δ α → δ
  | returned _ d => d
  | died d => d

def Prog (δ α : Type) : Type :=
  δ → Ran δ α

instance : Monad (Prog δ) where
  pure a := fun d => .returned a d
  bind x f := fun d =>
    match x d with
    | .returned a d => f a d
    | .died d => .died d

/-- Read the state. -/
def read (f : δ → α) : Prog δ α :=
  fun d => .returned (f d) d

/-- Change the state. -/
def modify (f : δ → δ) : Prog δ Unit :=
  fun d => .returned () (f d)

/-- A panic. -/
def die : Prog δ α :=
  fun d => .died d

/-- A step that changes the state by `done` and reports success, or is cut short. -/
def attempt (o : Outcome) (done cut : δ → δ) : Prog δ Bool :=
  fun d =>
    match o with
    | .ok => .returned true (done d)
    | .err => .returned false (cut d)
    | .crash => .died (cut d)

/-- Steps up to the first that reports an error. -/
def untilError : List (Prog δ Bool) → Prog δ Bool
  | [] => pure true
  | x :: xs => do if ← x then untilError xs else return false

@[simp] lemma run_pure (a : α) (d : δ) : (pure a : Prog δ α) d = .returned a d := rfl

@[simp] lemma run_die (d : δ) : (die : Prog δ α) d = .died d := rfl

section Bind

variable {x : Prog δ α} {d d' : δ}

lemma run_bind_congr {y : Prog δ α} (h : x d = y d') (f : α → Prog δ β) :
    (x >>= f) d = (y >>= f) d' := by
  change (match x d with | .returned a d => f a d | .died d => .died d) =
    match y d' with | .returned a d => f a d | .died d => .died d
  rw [h]

lemma run_bind_returned (h : x d = .returned a d') (f : α → Prog δ β) : (x >>= f) d = f a d' := by
  change (match x d with | .returned a d => f a d | .died d => .died d) = _
  rw [h]

lemma run_bind_died (h : x d = .died d') (f : α → Prog δ β) : (x >>= f) d = .died d' := by
  change (match x d with | .returned a d => f a d | .died d => .died d) = _
  rw [h]

end Bind

variable {o : Outcome} {done cut : δ → δ} {d : δ}

@[simp] lemma attempt_ok : attempt .ok done cut d = .returned true (done d) := rfl

@[simp] lemma attempt_err : attempt .err done cut d = .returned false (cut d) := rfl

@[simp] lemma attempt_crash : attempt .crash done cut d = .died (cut d) := rfl

variable (done cut d) in
/-- A step that does not succeed. -/
lemma attempt_cases (ho : o ≠ .ok) :
    attempt o done cut d = .returned false (cut d) ∨ attempt o done cut d = .died (cut d) := by
  cases o with
  | ok => exact absurd rfl ho
  | err => exact .inl rfl
  | crash => exact .inr rfl

lemma untilError_ok (xs : List (Prog δ Bool)) (ho : o = .ok) :
    untilError (attempt o done cut :: xs) d = untilError xs (done d) := by
  rw [untilError, ho, run_bind_returned attempt_ok]
  rfl

/-- The first error ends the sequence. -/
lemma untilError_of_ne (xs : List (Prog δ Bool)) (ho : o ≠ .ok) :
    untilError (attempt o done cut :: xs) d = .returned false (cut d) ∨
      untilError (attempt o done cut :: xs) d = .died (cut d) := by
  rw [untilError]
  obtain h | h := attempt_cases done cut d ho
  · exact .inl (run_bind_returned h _)
  · exact .inr (run_bind_died h _)

@[simp] lemma untilError_singleton : untilError [attempt o done cut] d = attempt o done cut d := by
  cases o with
  | ok => exact untilError_ok [] rfl
  | err => exact run_bind_returned attempt_err _
  | crash => exact run_bind_died attempt_crash _

/-! ### Pre- and postconditions -/

/-- If the program returns from a state with `P`, value and state have `Q`. -/
def Returns (x : Prog δ α) (P : δ → Prop) (Q : α → δ → Prop) : Prop :=
  ∀ d a d', P d → x d = .returned a d' → Q a d'

namespace Returns

variable {x : Prog δ α} {P : δ → Prop} {Q : α → δ → Prop}

lemma bind {f : α → Prog δ β} {R : β → δ → Prop} (hx : Returns x P Q)
    (hf : ∀ a, Returns (f a) (Q a) R) : Returns (x >>= f) P R := by
  intro d b d' hP hrun
  cases h : x d with
  | returned a d₁ => exact hf a _ _ _ (hx _ _ _ hP h) ((run_bind_returned h f).symm.trans hrun)
  | died d₁ => exact absurd ((run_bind_died h f).symm.trans hrun) (by simp)

lemma pure (h : ∀ d, P d → Q a d) : Returns (Pure.pure a) P Q := by
  rintro d _ _ hP ⟨⟩
  exact h d hP

lemma die : Returns (Faulty.die : Prog δ α) P Q := by
  rintro _ _ _ _ ⟨⟩

lemma attempt {o : Outcome} {done cut : δ → δ} {Q : Bool → δ → Prop}
    (hdone : ∀ d, P d → Q true (done d)) (hcut : ∀ d, P d → Q false (cut d)) :
    Returns (Faulty.attempt o done cut) P Q := by
  intro d a d' hP hrun
  cases o with
  | ok => cases hrun; exact hdone d hP
  | err => cases hrun; exact hcut d hP
  | crash => cases hrun

lemma untilError {xs : List (Prog δ Bool)} (h : ∀ x ∈ xs, Returns x P fun _ => P) :
    Returns (Faulty.untilError xs) P fun _ => P := by
  induction xs with
  | nil => exact .pure fun _ => id
  | cons x xs ih =>
    refine (h x (by simp)).bind fun ok => ?_
    split
    · exact ih fun y hy => h y (by simp [hy])
    · exact .pure fun _ => id

end Returns

/-! ### Conditions on both ends -/

/-- The program has returned with `Q`, or died with `R`. -/
def Ran.Meets (Q : α → δ → Prop) (R : δ → Prop) : Ran δ α → Prop
  | returned a d => Q a d
  | died d => R d

/-- From a state with `P` the program returns with `Q` or dies with `R`. -/
def Ends (x : Prog δ α) (P : δ → Prop) (Q : α → δ → Prop) (R : δ → Prop) : Prop :=
  ∀ d, P d → (x d).Meets Q R

namespace Ends

variable {x : Prog δ α} {P : δ → Prop} {Q : α → δ → Prop} {R : δ → Prop}

lemma bind {f : α → Prog δ β} {S : β → δ → Prop} (hx : Ends x P Q R)
    (hf : ∀ a, Ends (f a) (Q a) S R) : Ends (x >>= f) P S R := by
  intro d hP
  have h₁ := hx d hP
  cases h : x d with
  | returned a d₁ =>
    rw [h] at h₁
    rw [run_bind_returned h]
    exact hf a d₁ h₁
  | died d₁ =>
    rw [h] at h₁
    rwa [run_bind_died h]

lemma pure (h : ∀ d, P d → Q a d) : Ends (Pure.pure a) P Q R :=
  h

lemma read {f : δ → α} (h : ∀ d, P d → Q (f d) d) : Ends (Faulty.read f) P Q R :=
  h

lemma modify {f : δ → δ} {Q : Unit → δ → Prop} (h : ∀ d, P d → Q () (f d)) :
    Ends (Faulty.modify f) P Q R :=
  h

lemma attempt {o : Outcome} {done cut : δ → δ} {Q : Bool → δ → Prop}
    (hok : ∀ d, o = .ok → P d → Q true (done d)) (herr : ∀ d, o = .err → P d → Q false (cut d))
    (hcrash : ∀ d, P d → R (cut d)) : Ends (Faulty.attempt o done cut) P Q R := by
  intro d hP
  cases o with
  | ok => exact hok d rfl hP
  | err => exact herr d rfl hP
  | crash => exact hcrash d hP

lemma mono {P' : δ → Prop} {Q' : α → δ → Prop} (h : Ends x P Q R) (hP : ∀ d, P' d → P d)
    (hQ : ∀ a d, Q a d → Q' a d) : Ends x P' Q' R := by
  intro d hd
  have h₁ := h d (hP d hd)
  cases hx : x d with
  | returned a d₁ =>
    rw [hx] at h₁
    exact hQ a d₁ h₁
  | died d₁ => rwa [hx] at h₁

lemma ite {y : Prog δ α} {c : Prop} [Decidable c] (hx : c → Ends x P Q R)
    (hy : ¬ c → Ends y P Q R) : Ends (if c then x else y) P Q R := by
  split
  · exact hx ‹_›
  · exact hy ‹_›

end Ends

end Faulty
