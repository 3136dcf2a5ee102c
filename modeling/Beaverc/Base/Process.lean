import Mathlib.Data.List.Basic

/-!
# Processes that ask an environment

A process moves from state to state. A move shows events, or asks a request and
goes on with the answer, or stops with a result; it can also fail. An
environment says which answers a request may get. `Run` is a finite piece of a
run with everything an observer sees of it. `Simulation` is the rule by which
one process is shown to follow another, `Lockstep` the rule for processes that
move together.
-/

namespace Beaverc

/-- What a process does next. -/
inductive Move (σ ε ρ α β : Type) where
  | step (events : List ε) (s : σ)
  | ask (request : ρ) (next : α → σ)
  | stop (result : β)

/-- What an observer sees. -/
inductive Label (ε ρ α : Type) where
  | event (e : ε)
  | exchange (request : ρ) (answer : α)
deriving DecidableEq

/-- A process with states `σ`, failures `δ`, events `ε`, requests `ρ`, answers
`α` and results `β`. -/
abbrev Process (σ δ ε ρ α β : Type) :=
  σ → Except δ (Move σ ε ρ α β)

variable {σ τ δ ε ρ α β : Type}

namespace Process

/-- `Run P env ok n s t s'`: from `s` the process reaches `s'` in `n` moves
showing `t`, and every state it leaves on the way satisfies `ok`. -/
inductive Run (P : Process σ δ ε ρ α β) (env : ρ → α → Prop) (ok : σ → Prop) :
    Nat → σ → List (Label ε ρ α) → σ → Prop
  | refl (s : σ) : Run P env ok 0 s [] s
  | step {n : Nat} {s s' s'' : σ} {es : List ε} {t : List (Label ε ρ α)} :
      ok s → P s = .ok (.step es s') → Run P env ok n s' t s'' →
      Run P env ok (n + 1) s (es.map .event ++ t) s''
  | ask {n : Nat} {s s'' : σ} {r : ρ} {a : α} {next : α → σ} {t : List (Label ε ρ α)} :
      ok s → P s = .ok (.ask r next) → env r a → Run P env ok n (next a) t s'' →
      Run P env ok (n + 1) s (.exchange r a :: t) s''

/-- A run that ends with a result after `n` moves. -/
def EndsAfter (P : Process σ δ ε ρ α β) (env : ρ → α → Prop) (ok : σ → Prop) (n : Nat) (s : σ)
    (t : List (Label ε ρ α)) (b : β) : Prop :=
  ∃ s', Run P env ok n s t s' ∧ ok s' ∧ P s' = .ok (.stop b)

/-- A run that ends with a failure after `n` moves. -/
def FailsAfter (P : Process σ δ ε ρ α β) (env : ρ → α → Prop) (ok : σ → Prop) (n : Nat) (s : σ)
    (t : List (Label ε ρ α)) (e : δ) : Prop :=
  ∃ s', Run P env ok n s t s' ∧ ok s' ∧ P s' = .error e

/-- A run that ends with a result. -/
def Ends (P : Process σ δ ε ρ α β) (env : ρ → α → Prop) (ok : σ → Prop) (s : σ)
    (t : List (Label ε ρ α)) (b : β) : Prop :=
  ∃ n, EndsAfter P env ok n s t b

/-- Steps without requests. -/
inductive Silent (P : Process σ δ ε ρ α β) : σ → List ε → σ → Prop
  | refl (s : σ) : Silent P s [] s
  | step {s s' s'' : σ} {es fs : List ε} :
      P s = .ok (.step es s') → Silent P s' fs s'' → Silent P s (es ++ fs) s''

variable {P : Process σ δ ε ρ α β} {env : ρ → α → Prop} {ok : σ → Prop}

theorem Silent.single {s s' : σ} {es : List ε} (h : P s = .ok (.step es s')) :
    Silent P s es s' := by
  have h' := Silent.step h (.refl s')
  rwa [List.append_nil] at h'

/-- A step that shows nothing. -/
theorem Silent.quiet {s s' s'' : σ} {es : List ε} (h : P s = .ok (.step [] s'))
    (hr : Silent P s' es s'') : Silent P s es s'' :=
  .step h hr

theorem Run.quiet {n : Nat} {s s' s'' : σ} {t : List (Label ε ρ α)} (hs : ok s)
    (h : P s = .ok (.step [] s')) (hr : Run P env ok n s' t s'') : Run P env ok (n + 1) s t s'' :=
  .step hs h hr

theorem Silent.trans {s s' s'' : σ} {es fs : List ε} (h₁ : Silent P s es s')
    (h₂ : Silent P s' fs s'') : Silent P s (es ++ fs) s'' := by
  induction h₁ with
  | refl => exact h₂
  | step h _ ih =>
    rw [List.append_assoc]
    exact .step h (ih h₂)

theorem Silent.run {s s' : σ} {es : List ε} (h : Silent P s es s') :
    ∃ n, Run P env (fun _ => True) n s (es.map .event) s' := by
  induction h with
  | refl s => exact ⟨0, .refl s⟩
  | step h _ ih =>
    obtain ⟨n, hn⟩ := ih
    rw [List.map_append]
    exact ⟨n + 1, .step trivial h hn⟩

/-- A process has one way to go on: what it ends with after some steps it ends
with from there. -/
theorem Silent.ends {s s' : σ} {es : List ε} {t : List (Label ε ρ α)} {b : β}
    (h : Silent P s es s') (he : Ends P env ok s t b) : ∃ u, Ends P env ok s' u b := by
  induction h generalizing t with
  | refl => exact ⟨t, he⟩
  | step hs _ ih =>
    obtain ⟨n, s₁, hr, hk, hstop⟩ := he
    cases hr with
    | refl => rw [hs] at hstop; cases hstop
    | step hk₁ hs₁ hr₁ =>
      rw [hs] at hs₁
      cases hs₁
      exact ih ⟨_, s₁, hr₁, hk, hstop⟩
    | ask hk₁ hs₁ => rw [hs] at hs₁; cases hs₁

/-- A failure is the only one: a run that fails goes through every silent step,
and takes fewer moves from there on, if there is one. -/
theorem Silent.fails {s s' : σ} {es : List ε} {n : Nat} {t : List (Label ε ρ α)} {e : δ}
    (h : Silent P s es s') (hf : FailsAfter P env ok n s t e) :
    ∃ m u, t = es.map .event ++ u ∧ FailsAfter P env ok m s' u e ∧ m ≤ n ∧ (m = n → s' = s) := by
  induction h generalizing n t with
  | refl => exact ⟨n, t, rfl, hf, Nat.le_refl n, fun _ => rfl⟩
  | step hs _ ih =>
    obtain ⟨s₁, hr, hk, herr⟩ := hf
    cases hr with
    | refl => rw [hs] at herr; cases herr
    | step hk₁ hs₁ hr₁ =>
      rw [hs] at hs₁
      cases hs₁
      obtain ⟨m, u, rfl, hfail, hle, -⟩ := ih ⟨s₁, hr₁, hk, herr⟩
      rw [List.map_append, ← List.append_assoc]
      exact ⟨m, u, rfl, hfail, Nat.le_succ_of_le hle, fun heq => absurd heq (Nat.ne_of_lt
        (Nat.lt_succ_of_le hle))⟩
    | ask hk₁ hs₁ => rw [hs] at hs₁; cases hs₁

theorem Run.trans {n m : Nat} {s s' s'' : σ} {t u : List (Label ε ρ α)}
    (h₁ : Run P env ok n s t s') (h₂ : Run P env ok m s' u s'') :
    Run P env ok (m + n) s (t ++ u) s'' := by
  induction h₁ with
  | refl => exact h₂
  | step hk h _ ih =>
    rw [List.append_assoc]
    exact .step hk h (ih h₂)
  | ask hk h ha _ ih => exact .ask hk h ha (ih h₂)

theorem Run.mono {ok' : σ → Prop} {n : Nat} {s s' : σ} {t : List (Label ε ρ α)}
    (h : Run P env ok n s t s') (hk : ∀ s, ok s → ok' s) : Run P env ok' n s t s' := by
  induction h with
  | refl s => exact .refl s
  | step h₁ h _ ih => exact .step (hk _ h₁) h ih
  | ask h₁ h ha _ ih => exact .ask (hk _ h₁) h ha ih

/-- A run all of whose states are good. -/
theorem Run.restrict {n : Nat} {s s' : σ} {t : List (Label ε ρ α)}
    (h : Run P env (fun _ => True) n s t s')
    (hok : ∀ n u s', Run P env (fun _ => True) n s u s' → u <+: t → ok s') :
    Run P env ok n s t s' := by
  induction h with
  | refl s => exact .refl s
  | step _ hs _ ih =>
    exact .step (hok _ _ _ (.refl _) List.nil_prefix) hs (ih fun n u s' hr hu =>
      hok _ _ _ (.step trivial hs hr) ((List.prefix_append_right_inj _).mpr hu))
  | ask _ hs ha _ ih =>
    exact .ask (hok _ _ _ (.refl _) List.nil_prefix) hs ha (ih fun n u s' hr hu =>
      hok _ _ _ (.ask trivial hs ha hr) (List.cons_prefix_cons.mpr ⟨rfl, hu⟩))

/-- A property that every move from a good state keeps holds in all states of a
run. -/
theorem Run.invariant {inv : σ → Prop} {n : Nat} {s s' : σ} {t : List (Label ε ρ α)}
    (h : Run P env ok n s t s')
    (step : ∀ s es s', inv s → ok s → P s = .ok (.step es s') → inv s')
    (ask : ∀ s r next a, inv s → ok s → P s = .ok (.ask r next) → env r a → inv (next a))
    (hs : inv s) : inv s' := by
  induction h with
  | refl => exact hs
  | step hk h _ ih => exact ih (step _ _ _ hs hk h)
  | ask hk h ha _ ih => exact ih (ask _ _ _ _ hs hk h ha)

/-! ## Evaluation -/

/-- The first `n` moves against an environment that is a function. -/
def follow (P : Process σ δ ε ρ α β) (answer : ρ → α) :
    Nat → σ → Option (List (Label ε ρ α) × σ)
  | 0, s => some ([], s)
  | n + 1, s =>
    match P s with
    | .ok (.step es s') => (follow P answer n s').map fun r => (es.map .event ++ r.1, r.2)
    | .ok (.ask r next) =>
      (follow P answer n (next (answer r))).map fun x => (.exchange r (answer r) :: x.1, x.2)
    | _ => none

/-- Whether the process has stopped after `n` moves. -/
def stops (P : Process σ δ ε ρ α β) (answer : ρ → α) (n : Nat) (s : σ) : Bool :=
  match (follow P answer n s).map fun r => P r.2 with
  | some (.ok (.stop _)) => true
  | _ => false

/-- The failure after `n` moves. -/
def failure (P : Process σ δ ε ρ α β) (answer : ρ → α) (n : Nat) (s : σ) : Option δ :=
  match (follow P answer n s).map fun r => P r.2 with
  | some (.error e) => some e
  | _ => none

theorem follow_run {answer : ρ → α} {n : Nat} {s s' : σ} {t : List (Label ε ρ α)}
    (h : follow P answer n s = some (t, s')) :
    Run P (fun r a => a = answer r) (fun _ => True) n s t s' := by
  induction n generalizing s t with
  | zero => cases h; exact .refl s'
  | succ n ih =>
    unfold follow at h
    split at h
    · next es s₁ hs =>
      obtain ⟨r, hr, hx⟩ := Option.map_eq_some_iff.mp h
      cases hx
      exact .step trivial hs (ih hr)
    · next r next hs =>
      obtain ⟨x, hr, hx⟩ := Option.map_eq_some_iff.mp h
      cases hx
      exact .ask trivial hs rfl (ih hr)
    · cases h

theorem run_follow {answer : ρ → α} {n : Nat} {s s' : σ} {t : List (Label ε ρ α)}
    (h : Run P (fun r a => a = answer r) ok n s t s') : follow P answer n s = some (t, s') := by
  induction h with
  | refl => rfl
  | step _ hs _ ih =>
    unfold follow
    rw [hs]
    simp only [ih, Option.map_some]
  | ask _ hs ha _ ih =>
    subst ha
    unfold follow
    rw [hs]
    simp only [ih, Option.map_some]

theorem stops_iff {answer : ρ → α} {n : Nat} {s : σ} :
    stops P answer n s = true ↔
      ∃ t b, EndsAfter P (fun r a => a = answer r) (fun _ => True) n s t b := by
  unfold stops
  constructor
  · intro h
    cases hf : follow P answer n s with
    | none => rw [hf] at h; cases h
    | some r =>
      rw [hf] at h
      simp only [Option.map_some] at h
      split at h
      · next b hb => exact ⟨r.1, b, r.2, follow_run hf, trivial, Option.some.inj hb⟩
      · cases h
  · rintro ⟨t, b, s', hr, -, hs⟩
    rw [run_follow hr]
    simp only [Option.map_some, hs]

end Process

/-! ## Simulation -/

open Process

/-- `Q` follows `P` along `R`, from related states of which the one of `P`
satisfies `ok`: it shows the same events and asks the same requests. -/
structure Simulation (P : Process σ δ ε ρ α β) (Q : Process τ δ ε ρ α β) (ok : σ → Prop)
    (R : σ → τ → Prop) : Prop where
  step : ∀ {s q es s'}, R s q → ok s → P s = .ok (.step es s') →
    ∃ q', Silent Q q es q' ∧ R s' q'
  ask : ∀ {s q r next}, R s q → ok s → P s = .ok (.ask r next) →
    ∃ q' next', Silent Q q [] q' ∧ Q q' = .ok (.ask r next') ∧
      ∀ a, ∃ q'', Silent Q (next' a) [] q'' ∧ R (next a) q''

namespace Simulation

variable {P : Process σ δ ε ρ α β} {Q : Process τ δ ε ρ α β} {env : ρ → α → Prop}
  {ok : σ → Prop} {R : σ → τ → Prop}

/-- The run lemma of a simulation. -/
theorem run (h : Simulation P Q ok R) {n : Nat} {s s' : σ} {t : List (Label ε ρ α)} {q : τ}
    (hr : Run P env ok n s t s') (hR : R s q) :
    ∃ m q', Run Q env (fun _ => True) m q t q' ∧ R s' q' := by
  induction hr generalizing q with
  | refl s => exact ⟨0, q, .refl q, hR⟩
  | step hk hs _ ih =>
    obtain ⟨q₁, hq₁, hR₁⟩ := h.step hR hk hs
    obtain ⟨m₁, hm₁⟩ := hq₁.run
    obtain ⟨m₂, q₂, hq₂, hR₂⟩ := ih hR₁
    exact ⟨_, q₂, hm₁.trans hq₂, hR₂⟩
  | ask hk hs ha _ ih =>
    obtain ⟨q₁, next', hq₁, hq, hnext⟩ := h.ask hR hk hs
    obtain ⟨m₁, hm₁⟩ := hq₁.run
    obtain ⟨q₂, hq₂, hR₂⟩ := hnext _
    obtain ⟨m₂, hm₂⟩ := hq₂.run
    obtain ⟨m₃, q₃, hq₃, hR₃⟩ := ih hR₂
    exact ⟨_, q₃, hm₁.trans (.ask trivial hq ha (hm₂.trans hq₃)), hR₃⟩

/-- A run that ends is followed to its end where the last move is. -/
theorem ends (h : Simulation P Q ok R) {s : σ} {t : List (Label ε ρ α)} {b : β} {q : τ}
    (stop : ∀ {s q}, R s q → ok s → P s = .ok (.stop b) →
      ∃ q', Silent Q q [] q' ∧ Q q' = .ok (.stop b))
    (he : Ends P env ok s t b) (hR : R s q) : Ends Q env (fun _ => True) q t b := by
  obtain ⟨n, s', hr, hk, hs⟩ := he
  obtain ⟨m₁, q₁, hq₁, hR₁⟩ := h.run hr hR
  obtain ⟨q₂, hq₂, hq⟩ := stop hR₁ hk hs
  obtain ⟨m₂, hm₂⟩ := hq₂.run
  have hrun := hq₁.trans hm₂
  rw [List.map_nil, List.append_nil] at hrun
  exact ⟨_, q₂, hrun, trivial, hq⟩

/-- A run that fails is followed to its failure. -/
theorem fails (h : Simulation P Q ok R)
    (fail : ∀ {s q e}, R s q → ok s → P s = .error e → ∃ q', Silent Q q [] q' ∧ Q q' = .error e)
    {s : σ} {q : τ} {n : Nat} {t : List (Label ε ρ α)} {e : δ}
    (hf : FailsAfter P env ok n s t e) (hR : R s q) :
    ∃ m, FailsAfter Q env (fun _ => True) m q t e := by
  obtain ⟨s', hr, hk, hs⟩ := hf
  obtain ⟨m₁, q₁, hq₁, hR₁⟩ := h.run hr hR
  obtain ⟨q₂, hq₂, hq⟩ := fail hR₁ hk hs
  obtain ⟨m₂, hm₂⟩ := hq₂.run
  have hrun := hq₁.trans hm₂
  rw [List.map_nil, List.append_nil] at hrun
  exact ⟨_, q₂, hrun, trivial, hq⟩

end Simulation

/-- A simulation that carries failures in both directions: `Q` fails where `P`
does, a `P` that has stopped leaves `Q` without one of the `shown` failures, and
steps that `Q` does not answer by a step of its own make `rank` smaller. -/
structure FailureSimulation (P : Process σ δ ε ρ α β) (Q : Process τ δ ε ρ α β) (ok : σ → Prop)
    (shown : δ → Prop) (rank : σ → Nat) (R : σ → τ → Prop) : Prop extends
    Simulation P Q ok R where
  fail : ∀ {s q e}, R s q → ok s → P s = .error e → ∃ q', Silent Q q [] q' ∧ Q q' = .error e
  stop : ∀ {s q b}, R s q → ok s → P s = .ok (.stop b) →
    (∃ b', Q q = .ok (.stop b')) ∨ ∃ e, ¬ shown e ∧ Q q = .error e
  rank_lt : ∀ {s q es s'}, R s q → R s' q → ok s → P s = .ok (.step es s') → rank s' < rank s

namespace FailureSimulation

variable {P : Process σ δ ε ρ α β} {Q : Process τ δ ε ρ α β} {env : ρ → α → Prop}
  {ok : σ → Prop} {shown : δ → Prop} {rank : σ → Nat} {R : σ → τ → Prop}

/-- A run of `Q` that has nothing to do but to fail. -/
theorem failed {q : τ} {n : Nat} {t : List (Label ε ρ α)} {e e' : δ}
    (hf : FailsAfter Q env (fun _ => True) n q t e) (hq : Q q = .error e') : t = [] ∧ e = e' := by
  obtain ⟨q', hr, -, herr⟩ := hf
  cases hr with
  | refl =>
    rw [hq] at herr
    cases herr
    exact ⟨rfl, rfl⟩
  | step _ hs => rw [hq] at hs; cases hs
  | ask _ hs => rw [hq] at hs; cases hs

/-- Where every state that `P` reaches on the way satisfies `ok`, a failure of `Q` is
one of `P`. -/
theorem fails_of (h : FailureSimulation P Q ok shown rank R) {m : Nat} {s : σ} {q : τ}
    {t : List (Label ε ρ α)} {e : δ} (hshown : shown e)
    (hf : FailsAfter Q env (fun _ => True) m q t e) (hR : R s q)
    (hok : ∀ n u s', Run P env (fun _ => True) n s u s' → u <+: t → ok s') :
    ∃ n, FailsAfter P env (fun _ => True) n s t e := by
  -- by the number of moves of `Q`, and where `Q` does not move by the rank
  induction m using Nat.strongRecOn generalizing s q t with
  | ind m ihm =>
  induction hrank : rank s using Nat.strongRecOn generalizing s q t with
  | ind k ihk =>
  have hs := hok 0 [] s (.refl s) List.nil_prefix
  cases hmove : P s with
  | error e' =>
    obtain ⟨q', hq', herr⟩ := h.fail hR hs hmove
    obtain ⟨m', u, rfl, hf', -⟩ := hq'.fails hf
    obtain ⟨rfl, rfl⟩ := failed hf' herr
    exact ⟨0, s, .refl s, trivial, hmove⟩
  | ok move =>
    cases move with
    | step es s' =>
      obtain ⟨q', hq', hR'⟩ := h.step hR hs hmove
      obtain ⟨m', u, rfl, hf', hle, hsame⟩ := hq'.fails hf
      have hok' : ∀ n u' s'', Run P env (fun _ => True) n s' u' s'' → u' <+: u → ok s'' :=
        fun n u' s'' hr hu => hok _ _ _ (.step trivial hmove hr)
          ((List.prefix_append_right_inj _).mpr hu)
      obtain ⟨n, s₁, hr, -, herr⟩ : ∃ n, FailsAfter P env (fun _ => True) n s' u e := by
        rcases Nat.lt_or_eq_of_le hle with hlt | rfl
        · exact ihm m' hlt hf' hR' hok'
        · obtain rfl := hsame rfl
          exact ihk _ (hrank ▸ h.rank_lt hR hR' hs hmove) hf' hR' hok' rfl
      exact ⟨n + 1, s₁, .step trivial hmove hr, trivial, herr⟩
    | ask r next =>
      obtain ⟨q', next', hq', hask, hnext⟩ := h.ask hR hs hmove
      obtain ⟨m', u, rfl, ⟨q₁, hr₁, -, herr₁⟩, hle, -⟩ := hq'.fails hf
      cases hr₁ with
      | refl => rw [hask] at herr₁; cases herr₁
      | step _ hs₁ => rw [hask] at hs₁; cases hs₁
      | ask _ hs₁ ha hr₂ =>
        rw [hask] at hs₁
        cases hs₁
        obtain ⟨q₂, hq₂, hR₂⟩ := hnext _
        obtain ⟨m₂, u₂, rfl, hf₂, hle₂, -⟩ := hq₂.fails ⟨q₁, hr₂, trivial, herr₁⟩
        obtain ⟨n, s₁, hr, -, herr⟩ := ihm m₂ (by omega) hf₂ hR₂
          fun n u s'' hr hu => hok _ _ _ (.ask trivial hmove ha hr)
            (List.cons_prefix_cons.mpr ⟨rfl, hu⟩)
        exact ⟨n + 1, s₁, .ask trivial hmove ha hr, trivial, herr⟩
    | stop b =>
      rcases h.stop hR hs hmove with ⟨b', hb⟩ | ⟨e', hne, he⟩
      · obtain ⟨q', hr, -, herr⟩ := hf
        cases hr with
        | refl => rw [hb] at herr; cases herr
        | step _ hs' => rw [hb] at hs'; cases hs'
        | ask _ hs' => rw [hb] at hs'; cases hs'
      · obtain ⟨-, rfl⟩ := failed hf he
        exact absurd hshown hne

/-- `Q` fails as `P` does. -/
theorem fails_iff (h : FailureSimulation P Q ok shown rank R) {s : σ} {q : τ}
    {t : List (Label ε ρ α)} {e : δ} (hshown : shown e) (hR : R s q)
    (hok : ∀ n u s', Run P env (fun _ => True) n s u s' → u <+: t → ok s') :
    (∃ n, FailsAfter P env (fun _ => True) n s t e) ↔
      ∃ m, FailsAfter Q env (fun _ => True) m q t e := by
  constructor
  · rintro ⟨n, s', hr, -, herr⟩
    exact h.toSimulation.fails h.fail ⟨s', hr.restrict hok, hok _ _ _ hr (List.prefix_refl t), herr⟩
      hR
  · rintro ⟨m, hf⟩
    exact h.fails_of hshown hf hR hok

end FailureSimulation

/-! ## Observation -/

/-- A move of which only the events in `keep` are shown, and of a request only
its `view`. -/
def Move.observe {ρ' : Type} (keep : ε → Bool) (view : ρ → ρ') :
    Move σ ε ρ α β → Move σ ε ρ' α β
  | .step es s => .step (es.filter keep) s
  | .ask r next => .ask (view r) next
  | .stop b => .stop b

def Process.observe {ρ' : Type} (keep : ε → Bool) (view : ρ → ρ') (P : Process σ δ ε ρ α β) :
    Process σ δ ε ρ' α β :=
  fun s => (P s).map (Move.observe keep view)

theorem Process.observe_ok {ρ' : Type} {keep : ε → Bool} {view : ρ → ρ'}
    {P : Process σ δ ε ρ α β} {s : σ} {m : Move σ ε ρ' α β} :
    P.observe keep view s = .ok m ↔ ∃ m₀, P s = .ok m₀ ∧ m₀.observe keep view = m := by
  unfold Process.observe
  cases P s with
  | ok m₀ =>
    constructor
    · intro h
      cases h
      exact ⟨m₀, rfl, rfl⟩
    · rintro ⟨m₁, h, rfl⟩
      cases h
      rfl
  | error e =>
    constructor
    · intro h
      cases h
    · rintro ⟨m₁, h, -⟩
      cases h

theorem Process.observe_error {ρ' : Type} {keep : ε → Bool} {view : ρ → ρ'}
    {P : Process σ δ ε ρ α β} {s : σ} {e : δ} :
    P.observe keep view s = .error e ↔ P s = .error e := by
  unfold Process.observe
  cases P s with
  | ok m => exact ⟨nofun, nofun⟩
  | error e' =>
    constructor
    · intro h
      cases h
      rfl
    · intro h
      cases h
      rfl

/-! ## Lockstep -/

/-- Each run of `P` from `s` whose states satisfy `ok` is one of `Q` from `q`:
it shows the same, takes as many moves, and ends with the same result or with
the same failure, if that is one of those in `shown`. -/
structure Mimics (P : Process σ δ ε ρ α β) (Q : Process τ δ ε ρ α β) (env : ρ → α → Prop)
    (ok : σ → Prop) (shown : δ → Prop) (s : σ) (q : τ) : Prop where
  run : ∀ n t s', Run P env ok n s t s' → ∃ q', Run Q env (fun _ => True) n q t q'
  ends : ∀ n t b, EndsAfter P env ok n s t b → EndsAfter Q env (fun _ => True) n q t b
  fails : ∀ n t e, shown e → FailsAfter P env ok n s t e →
    FailsAfter Q env (fun _ => True) n q t e

/-- Moves that show the same and lead to related states. -/
inductive Move.Rel (R : σ → τ → Prop) : Move σ ε ρ α β → Move τ ε ρ α β → Prop
  | step {es : List ε} {s : σ} {q : τ} : R s q → Rel R (.step es s) (.step es q)
  | ask {r : ρ} {next : α → σ} {next' : α → τ} : (∀ a, R (next a) (next' a)) →
      Rel R (.ask r next) (.ask r next')
  | stop {b : β} : Rel R (.stop b) (.stop b)

/-- `Q` answers every move of `P` by one of its own. -/
structure Lockstep (P : Process σ δ ε ρ α β) (Q : Process τ δ ε ρ α β) (ok : σ → Prop)
    (shown : δ → Prop) (R : σ → τ → Prop) : Prop where
  move : ∀ {s q m}, R s q → ok s → P s = .ok m → ∃ m', Q q = .ok m' ∧ m.Rel R m'
  fail : ∀ {s q e}, R s q → ok s → shown e → P s = .error e → Q q = .error e

namespace Lockstep

variable {P : Process σ δ ε ρ α β} {Q : Process τ δ ε ρ α β} {env : ρ → α → Prop}
  {ok : σ → Prop} {shown : δ → Prop} {R : σ → τ → Prop}

theorem run (h : Lockstep P Q ok shown R) {n : Nat} {s s' : σ} {t : List (Label ε ρ α)} {q : τ}
    (hr : Run P env ok n s t s') (hR : R s q) :
    ∃ q', Run Q env (fun _ => True) n q t q' ∧ R s' q' := by
  induction hr generalizing q with
  | refl s => exact ⟨q, .refl q, hR⟩
  | step hk hs _ ih =>
    obtain ⟨m, hm, hrel⟩ := h.move hR hk hs
    cases hrel with
    | step hR₁ =>
      obtain ⟨q₂, hq₂, hR₂⟩ := ih hR₁
      exact ⟨q₂, .step trivial hm hq₂, hR₂⟩
  | ask hk hs ha _ ih =>
    obtain ⟨m, hm, hrel⟩ := h.move hR hk hs
    cases hrel with
    | ask hnext =>
      obtain ⟨q₂, hq₂, hR₂⟩ := ih (hnext _)
      exact ⟨q₂, .ask trivial hm ha hq₂, hR₂⟩

theorem mimics (h : Lockstep P Q ok shown R) {s : σ} {q : τ} (hR : R s q) :
    Mimics P Q env ok shown s q where
  run n t s' hr :=
    let ⟨q', hq, _⟩ := h.run hr hR
    ⟨q', hq⟩
  ends n t b := by
    rintro ⟨s', hr, hk, hs⟩
    obtain ⟨q', hq, hR'⟩ := h.run hr hR
    obtain ⟨m, hm, hrel⟩ := h.move hR' hk hs
    cases hrel with
    | stop => exact ⟨q', hq, trivial, hm⟩
  fails n t e he := by
    rintro ⟨s', hr, hk, hs⟩
    obtain ⟨q', hq, hR'⟩ := h.run hr hR
    exact ⟨q', hq, trivial, h.fail hR' hk he hs⟩

end Lockstep

end Beaverc
