import Mathlib.Data.List.Basic

/-!
# Computations that may fail

When a sequence of `Except` computations succeeds, and when two computations
agree: both fail with the same failure, which is not a bad one, or both succeed
with related values.
-/

namespace Beaverc.Results

variable {ε α β : Type}

theorem bind_ok {x : Except ε α} {f : α → Except ε β} {b : β} :
    x >>= f = .ok b ↔ ∃ a, x = .ok a ∧ f a = .ok b := by
  cases x with
  | error e => exact ⟨nofun, fun ⟨_, h, _⟩ => nomatch h⟩
  | ok a => exact ⟨fun h => ⟨a, rfl, h⟩, fun ⟨_, h, hf⟩ => by cases h; exact hf⟩

theorem map_ok {x : Except ε α} {f : α → β} {b : β} :
    x.map f = .ok b ↔ ∃ a, x = .ok a ∧ f a = b := by
  cases x with
  | error e => exact ⟨nofun, fun ⟨_, h, _⟩ => nomatch h⟩
  | ok a => exact ⟨fun h => ⟨a, rfl, by cases h; rfl⟩, fun ⟨_, h, hf⟩ => by cases h; cases hf; rfl⟩

@[simp] theorem ok_bind (a : α) (f : α → Except ε β) : (Except.ok a >>= f) = f a :=
  rfl

@[simp] theorem error_bind (e : ε) (f : α → Except ε β) :
    ((Except.error e : Except ε α) >>= f) = .error e :=
  rfl

@[simp] theorem pure_ok (a : α) : (pure a : Except ε α) = .ok a :=
  rfl

theorem toOption_eq_some {x : Except ε α} {a : α} (h : x.toOption = some a) :
    x = .ok a := by
  cases x with
  | error e => cases h
  | ok b =>
    cases h
    rfl

/-! ## Agreement -/

/-- `x` and `y` fail alike, and not with a failure in `bad`, or have results
related by `R`. -/
inductive Agree (bad : ε → Prop) (R : α → β → Prop) : Except ε α → Except ε β → Prop
  | ok {a : α} {b : β} : R a b → Agree bad R (.ok a) (.ok b)
  | error {e : ε} : ¬ bad e → Agree bad R (.error e) (.error e)

namespace Agree

variable {bad : ε → Prop} {γ ζ : Type}

theorem mono {R S : α → β → Prop} {x : Except ε α} {y : Except ε β} (h : Agree bad R x y)
    (hRS : ∀ a b, R a b → S a b) : Agree bad S x y := by
  cases h with
  | ok hR => exact .ok (hRS _ _ hR)
  | error he => exact .error he

theorem bind {R : α → β → Prop} {S : γ → ζ → Prop} {x : Except ε α} {y : Except ε β}
    {f : α → Except ε γ} {g : β → Except ε ζ} (h : Agree bad R x y)
    (hfg : ∀ a b, R a b → Agree bad S (f a) (g b)) : Agree bad S (x >>= f) (y >>= g) := by
  cases h with
  | ok hR => exact hfg _ _ hR
  | error he => exact .error he

/-- A computation agrees with itself. -/
theorem self {x : Except ε α} (h : ∀ e, x = .error e → ¬ bad e) :
    Agree bad (fun a b => a = b ∧ x = .ok a) x x := by
  cases x with
  | ok a => exact .ok ⟨rfl, rfl⟩
  | error e => exact .error (h e rfl)

theorem mapM {f g : α → Except ε β} {l : List α} (h : ∀ a ∈ l, Agree bad Eq (f a) (g a)) :
    Agree bad Eq (l.mapM f) (l.mapM g) := by
  induction l with
  | nil => exact .ok rfl
  | cons a l ih =>
    rw [List.mapM_cons, List.mapM_cons]
    refine (h a (List.mem_cons_self ..)).bind fun b _ hb => ?_
    subst hb
    refine (ih fun a ha => h a (List.mem_cons_of_mem _ ha)).bind fun bs _ hbs => ?_
    subst hbs
    exact .ok rfl

end Agree

end Beaverc.Results
