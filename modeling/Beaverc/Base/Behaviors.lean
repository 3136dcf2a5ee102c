import Beaverc.Base.Process

/-!
# Behaviors

A `Behavior` is the tree of all that a computation may show, ask and end with.
A loop is unrolled as often as its fuel allows and cut off there (`more`), so
that behaviors compose as a monad and no infinite tree is needed.

`Exhibits P n s T` says that the process `P` behaves from `s` on as `T` does,
and is not cut off before it has made `n` moves. Where this is known for every
`n`, the paths of the trees are exactly the runs of the process that end
(`Exhibits.finishes_iff`). `Performs` is the rule by which it is shown of a
piece of a computation at a time: in sequence (`Performs.bind`) and in a loop
(`Performs.iterate`).
-/

namespace Beaverc

/-- What a computation with failures `δ`, events `ε`, requests `ρ`, answers `α`
and results `β` does. -/
inductive Behavior (δ ε ρ α β : Type) where
  | done (b : β)
  | fail (e : δ)
  | more
  | act (e : ε) (rest : Behavior δ ε ρ α β)
  | ask (r : ρ) (next : α → Behavior δ ε ρ α β)

variable {σ δ ε ρ α β γ : Type}

namespace Behavior

def bind (T : Behavior δ ε ρ α β) (f : β → Behavior δ ε ρ α γ) : Behavior δ ε ρ α γ :=
  match T with
  | .done b => f b
  | .fail e => .fail e
  | .more => .more
  | .act e rest => .act e (rest.bind f)
  | .ask r next => .ask r fun a => (next a).bind f

instance monad : Monad (Behavior δ ε ρ α) where
  pure := .done
  bind := .bind

/-- A computation without events and requests. -/
def ofExcept : Except δ β → Behavior δ ε ρ α β
  | .ok b => .done b
  | .error e => .fail e

/-- The events of a move in front of what follows. -/
def acts (es : List ε) (T : Behavior δ ε ρ α β) : Behavior δ ε ρ α β :=
  es.foldr .act T

/-- A loop: each turn goes on with a new state or leaves with a result. -/
def iterate (turn : γ → Behavior δ ε ρ α (γ ⊕ β)) : Nat → γ → Behavior δ ε ρ α β
  | 0, _ => .more
  | n + 1, c => (turn c).bind fun r =>
    match r with
    | .inl c' => iterate turn n c'
    | .inr b => .done b

/-- A path through the tree, with answers that the environment may give, to its
result or its failure. -/
inductive Path (env : ρ → α → Prop) :
    Behavior δ ε ρ α β → List (Label ε ρ α) → Except δ β → Prop
  | done (b : β) : Path env (.done b) [] (.ok b)
  | fail (e : δ) : Path env (.fail e) [] (.error e)
  | act {e : ε} {T : Behavior δ ε ρ α β} {t : List (Label ε ρ α)} {o : Except δ β} :
      Path env T t o → Path env (.act e T) (.event e :: t) o
  | ask {r : ρ} {a : α} {next : α → Behavior δ ε ρ α β} {t : List (Label ε ρ α)}
      {o : Except δ β} :
      env r a → Path env (next a) t o → Path env (.ask r next) (.exchange r a :: t) o

/-- The path on which each request gets the answer of a function. -/
def answered (answer : ρ → α) : Behavior δ ε ρ α β → Option (List (Label ε ρ α) × Except δ β)
  | .done b => some ([], .ok b)
  | .fail e => some ([], .error e)
  | .more => none
  | .act e T => (T.answered answer).map fun p => (.event e :: p.1, p.2)
  | .ask r next => ((next (answer r)).answered answer).map fun p =>
    (.exchange r (answer r) :: p.1, p.2)

theorem path_answered {answer : ρ → α} {T : Behavior δ ε ρ α β} {t : List (Label ε ρ α)}
    {o : Except δ β} (h : T.answered answer = some (t, o)) :
    Path (fun r a => a = answer r) T t o := by
  induction T generalizing t with
  | done b =>
    cases h
    exact .done b
  | fail e =>
    cases h
    exact .fail e
  | more => cases h
  | act e T ih =>
    obtain ⟨p, hp, he⟩ := Option.map_eq_some_iff.mp h
    cases he
    exact .act (ih hp)
  | ask r next ih =>
    obtain ⟨p, hp, he⟩ := Option.map_eq_some_iff.mp h
    cases he
    exact .ask rfl (ih _ hp)

variable {env : ρ → α → Prop}

theorem path_bind {T : Behavior δ ε ρ α γ} {f : γ → Behavior δ ε ρ α β} {t : List (Label ε ρ α)}
    {b : β} (h : Path env (T.bind f) t (.ok b)) : ∃ c u, Path env (f c) u (.ok b) := by
  induction T generalizing t with
  | done c => exact ⟨c, t, h⟩
  | fail e => cases h
  | more => cases h
  | act e rest ih =>
    cases h with
    | act h => exact ih h
  | ask r next ih =>
    cases h with
    | ask _ h => exact ih _ h

theorem bind_assoc {β' : Type} (T : Behavior δ ε ρ α β) (f : β → Behavior δ ε ρ α γ)
    (g : γ → Behavior δ ε ρ α β') : (T.bind f).bind g = T.bind fun b => (f b).bind g := by
  induction T with
  | done | fail | more => rfl
  | act e rest ih => exact congrArg (act e) ih
  | ask r next ih => exact congrArg (ask r) (funext ih)

theorem bind_done (T : Behavior δ ε ρ α β) : T.bind .done = T := by
  induction T with
  | done | fail | more => rfl
  | act e rest ih => exact congrArg (act e) ih
  | ask r next ih => exact congrArg (ask r) (funext ih)

instance lawful : LawfulMonad (Behavior δ ε ρ α) :=
  LawfulMonad.mk' _ bind_done (fun _ _ => rfl) bind_assoc

theorem bind_acts (es : List ε) (T : Behavior δ ε ρ α β) (f : β → Behavior δ ε ρ α γ) :
    (acts es T).bind f = acts es (T.bind f) := by
  induction es with
  | nil => rfl
  | cons e es ih => exact congrArg (act e) ih

theorem path_acts {es : List ε} {T : Behavior δ ε ρ α β} {t : List (Label ε ρ α)}
    {o : Except δ β} (h : Path env T t o) : Path env (acts es T) (es.map .event ++ t) o := by
  induction es with
  | nil => exact h
  | cons e es ih => exact .act ih

theorem path_acts_inv {es : List ε} {T : Behavior δ ε ρ α β} {t : List (Label ε ρ α)}
    {o : Except δ β} (h : Path env (acts es T) t o) :
    ∃ u, t = es.map .event ++ u ∧ Path env T u o := by
  induction es generalizing t with
  | nil => exact ⟨t, rfl, h⟩
  | cons e es ih =>
    cases h with
    | act h' =>
      obtain ⟨u, rfl, hu⟩ := ih h'
      exact ⟨u, rfl, hu⟩

end Behavior

namespace Process

open Behavior (Path acts)

/-- A run of `n` moves that ends with the result or the failure `o`. -/
def Finishes (P : Process σ δ ε ρ α β) (env : ρ → α → Prop) (n : Nat) (s : σ)
    (t : List (Label ε ρ α)) (o : Except δ β) : Prop :=
  ∃ s', Run P env (fun _ => True) n s t s' ∧ P s' = o.map .stop

theorem finishes_ok {P : Process σ δ ε ρ α β} {env : ρ → α → Prop} {n : Nat} {s : σ}
    {t : List (Label ε ρ α)} {b : β} :
    P.Finishes env n s t (.ok b) ↔ EndsAfter P env (fun _ => True) n s t b := by
  constructor
  · rintro ⟨s', hr, hs⟩
    exact ⟨s', hr, trivial, hs⟩
  · rintro ⟨s', hr, -, hs⟩
    exact ⟨s', hr, hs⟩

theorem finishes_error {P : Process σ δ ε ρ α β} {env : ρ → α → Prop} {n : Nat} {s : σ}
    {t : List (Label ε ρ α)} {e : δ} :
    P.Finishes env n s t (.error e) ↔ FailsAfter P env (fun _ => True) n s t e := by
  constructor
  · rintro ⟨s', hr, hs⟩
    exact ⟨s', hr, trivial, hs⟩
  · rintro ⟨s', hr, -, hs⟩
    exact ⟨s', hr, hs⟩

/-! ## What a process exhibits -/

/-- From `s` on the process behaves as the tree, which is not cut off within its
first `n` moves. -/
inductive Exhibits (P : Process σ δ ε ρ α β) : Nat → σ → Behavior δ ε ρ α β → Prop
  | cut (s : σ) : Exhibits P 0 s .more
  | stop {n : Nat} {s : σ} {b : β} : P s = .ok (.stop b) → Exhibits P n s (.done b)
  | fail {n : Nat} {s : σ} {e : δ} : P s = .error e → Exhibits P n s (.fail e)
  | step {m n : Nat} {s s' : σ} {es : List ε} {T : Behavior δ ε ρ α β} :
      P s = .ok (.step es s') → m ≤ n + 1 → Exhibits P n s' T → Exhibits P m s (acts es T)
  | ask {m n : Nat} {s : σ} {r : ρ} {next : α → σ} {k : α → Behavior δ ε ρ α β} :
      P s = .ok (.ask r next) → m ≤ n + 1 → (∀ a, Exhibits P n (next a) (k a)) →
      Exhibits P m s (.ask r k)

namespace Exhibits

variable {P : Process σ δ ε ρ α β} {env : ρ → α → Prop} {m n : Nat} {s s' : σ}
  {T : Behavior δ ε ρ α β} {t : List (Label ε ρ α)} {o : Except δ β}

theorem mono (h : P.Exhibits n s T) (hm : m ≤ n) : P.Exhibits m s T := by
  cases h with
  | cut => rw [Nat.le_zero.mp hm]; exact .cut s
  | stop hs => exact .stop hs
  | fail hs => exact .fail hs
  | step hs hle h' => exact .step hs (Nat.le_trans hm hle) h'
  | ask hs hle h' => exact .ask hs (Nat.le_trans hm hle) h'

/-- A step that shows nothing. -/
theorem silent (hs : P s = .ok (.step [] s')) (h : P.Exhibits n s' T) : P.Exhibits (n + 1) s T :=
  .step hs (Nat.le_refl _) h

/-- A path of the tree is a run of the process. -/
theorem finishes (h : P.Exhibits n s T) (hp : Path env T t o) : ∃ k, P.Finishes env k s t o := by
  induction h generalizing t with
  | cut => cases hp
  | stop hs => cases hp; exact ⟨0, _, .refl _, hs⟩
  | fail hs => cases hp; exact ⟨0, _, .refl _, hs⟩
  | step hs _ _ ih =>
    obtain ⟨u, rfl, hu⟩ := Behavior.path_acts_inv hp
    obtain ⟨k, s₁, hr, hs₁⟩ := ih hu
    exact ⟨k + 1, s₁, .step trivial hs hr, hs₁⟩
  | ask hs _ _ ih =>
    cases hp with
    | ask ha hp' =>
      obtain ⟨k, s₁, hr, hs₁⟩ := ih _ hp'
      exact ⟨k + 1, s₁, .ask trivial hs ha hr, hs₁⟩

/-- A run of fewer moves than the tree is good for is one of its paths. -/
theorem path {k : Nat} (h : P.Exhibits n s T) (hf : P.Finishes env k s t o) (hk : k < n) :
    Path env T t o := by
  induction h generalizing k t with
  | cut => exact absurd hk (Nat.not_lt_zero k)
  | stop hs =>
    obtain ⟨s₁, hr, hs₁⟩ := hf
    cases hr with
    | refl =>
      rw [hs] at hs₁
      cases o <;> cases hs₁
      exact .done _
    | step _ hs' => rw [hs] at hs'; cases hs'
    | ask _ hs' => rw [hs] at hs'; cases hs'
  | fail hs =>
    obtain ⟨s₁, hr, hs₁⟩ := hf
    cases hr with
    | refl =>
      rw [hs] at hs₁
      cases o <;> cases hs₁
      exact .fail _
    | step _ hs' => rw [hs] at hs'; cases hs'
    | ask _ hs' => rw [hs] at hs'; cases hs'
  | step hs hle _ ih =>
    obtain ⟨s₁, hr, hs₁⟩ := hf
    cases hr with
    | refl => rw [hs] at hs₁; cases o <;> cases hs₁
    | step _ hs' hr' =>
      rw [hs] at hs'
      cases hs'
      exact Behavior.path_acts
        (ih ⟨s₁, hr', hs₁⟩ (Nat.lt_of_succ_lt_succ (Nat.lt_of_lt_of_le hk hle)))
    | ask _ hs' => rw [hs] at hs'; cases hs'
  | ask hs hle _ ih =>
    obtain ⟨s₁, hr, hs₁⟩ := hf
    cases hr with
    | refl => rw [hs] at hs₁; cases o <;> cases hs₁
    | step _ hs' => rw [hs] at hs'; cases hs'
    | ask _ hs' ha hr' =>
      rw [hs] at hs'
      cases hs'
      exact .ask ha (ih _ ⟨s₁, hr', hs₁⟩ (Nat.lt_of_succ_lt_succ (Nat.lt_of_lt_of_le hk hle)))

end Exhibits

/-- A process that exhibits a tree for any number of moves ends as the paths of
the trees do, and in no other way. -/
theorem finishes_iff {P : Process σ δ ε ρ α β} {env : ρ → α → Prop} {s : σ}
    {T : Nat → Behavior δ ε ρ α β} (h : ∀ n, P.Exhibits n s (T n)) {t : List (Label ε ρ α)}
    {o : Except δ β} : (∃ k, P.Finishes env k s t o) ↔ ∃ n, Path env (T n) t o := by
  constructor
  · rintro ⟨k, hf⟩
    exact ⟨k + 1, (h (k + 1)).path hf (Nat.lt_succ_self k)⟩
  · rintro ⟨n, hp⟩
    exact (h n).finishes hp

/-! ## A piece of a behavior -/

/-- From `s` the process behaves as `T` does, for at least `n` moves, and comes to
a state that `G` relates to the result of `T`, if there is one: whatever tree it
exhibits from there on can be put behind `T`. -/
def Performs (P : Process σ δ ε ρ α β) (n : Nat) (s : σ) (T : Behavior δ ε ρ α γ)
    (G : γ → σ → Prop) : Prop :=
  ∀ m, m ≤ n → ∀ K : γ → Behavior δ ε ρ α β, (∀ c s', G c s' → P.Exhibits m s' (K c)) →
    P.Exhibits m s (T.bind K)

namespace Performs

variable {P : Process σ δ ε ρ α β} {n : Nat} {s s' : σ} {T : Behavior δ ε ρ α γ}
  {G H : γ → σ → Prop}

theorem done {c : γ} (h : G c s) : P.Performs n s (.done c) G :=
  fun _ _ _ hK => hK c s h

theorem fail {e : δ} (h : P s = .error e) : P.Performs n s (.fail e) G :=
  fun _ _ _ _ => .fail h

theorem step {es : List ε} (hs : P s = .ok (.step es s')) (h : P.Performs n s' T G) :
    P.Performs n s (acts es T) G := by
  intro m hm K hK
  rw [Behavior.bind_acts]
  exact .step hs (Nat.le_succ m) (h m hm K hK)

/-- A step that shows nothing. -/
theorem silent (hs : P s = .ok (.step [] s')) (h : P.Performs n s' T G) : P.Performs n s T G :=
  h.step hs

theorem ask {r : ρ} {next : α → σ} {k : α → Behavior δ ε ρ α γ} (hs : P s = .ok (.ask r next))
    (h : ∀ a, P.Performs n (next a) (k a) G) : P.Performs n s (.ask r k) G :=
  fun m hm K hK => .ask hs (Nat.le_succ m) fun a => h a m hm K hK

/-- One piece after another. -/
theorem bind {γ' : Type} {C : γ → Behavior δ ε ρ α γ'} {H : γ' → σ → Prop}
    (h : P.Performs n s T G) (hC : ∀ c s', G c s' → P.Performs n s' (C c) H) :
    P.Performs n s (T.bind C) H := by
  intro m hm K hK
  rw [Behavior.bind_assoc]
  exact h m hm _ fun c s' hG => hC c s' hG m hm K hK

/-- Moves behind a piece that add nothing to its tree. -/
theorem extend (h : P.Performs n s T G) (hH : ∀ c s', G c s' → P.Performs n s' (.done c) H) :
    P.Performs n s T H := by
  rw [← Behavior.bind_done T]
  exact h.bind hH

/-- A loop whose head makes a silent move: `G` relates the state of the loop to
the process at the head. -/
theorem iterate {γ' : Type} {turn : γ → Behavior δ ε ρ α (γ ⊕ γ')} {G : γ → σ → Prop}
    {H : γ' → σ → Prop}
    (hturn : ∀ c s, G c s → ∃ s', P s = .ok (.step [] s') ∧
      P.Performs n s' (turn c) fun r s'' =>
        (∀ c', r = .inl c' → G c' s'') ∧ ∀ b, r = .inr b → H b s'')
    {c : γ} (hG : G c s) : P.Performs n s (Behavior.iterate turn n c) H := by
  -- the number of moves that are left bounds the number of turns
  have hloop : ∀ k m, m ≤ k → m ≤ n → ∀ c s, G c s → ∀ K : γ' → Behavior δ ε ρ α β,
      (∀ b s', H b s' → P.Exhibits m s' (K b)) →
      P.Exhibits m s ((Behavior.iterate turn k c).bind K) := by
    intro k
    induction k with
    | zero =>
      intro m hm _ c s _ K _
      rw [Nat.le_zero.mp hm]
      exact .cut s
    | succ k ih =>
      intro m hm hmn c s hG K hK
      obtain ⟨s', hs, hperf⟩ := hturn c s hG
      have hpred : m - 1 ≤ n := Nat.le_trans (Nat.sub_le m 1) hmn
      have hrest : P.Exhibits (m - 1) s' ((Behavior.iterate turn (k + 1) c).bind K) := by
        rw [Behavior.iterate, Behavior.bind_assoc]
        refine hperf (m - 1) hpred _ fun r s'' hr => ?_
        cases r with
        | inl c' =>
          exact ih (m - 1) (Nat.sub_le_of_le_add hm) hpred c' s'' (hr.1 c' rfl) K
            fun b s₁ hb => (hK b s₁ hb).mono (Nat.sub_le m 1)
        | inr b => exact (hK b s'' (hr.2 b rfl)).mono (Nat.sub_le m 1)
      exact (hrest.silent hs).mono (Nat.le_add_of_sub_le (Nat.le_refl _))
  intro m hm K hK
  exact hloop n m hm hm c s hG K hK

/-- A whole run: the process stops where the piece has come to its end. -/
theorem exhibits {T : Behavior δ ε ρ α β}
    (h : P.Performs n s T fun b s' => P s' = .ok (.stop b)) : P.Exhibits n s T := by
  rw [← Behavior.bind_done T]
  exact h n (Nat.le_refl n) _ fun b s' hb => .stop hb

end Performs

end Process

end Beaverc
