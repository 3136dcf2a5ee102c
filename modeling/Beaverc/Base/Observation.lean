import Beaverc.Base.Behaviors

/-!
# Runs that are observed

What an observer sees of the runs of a process (`observed_run`), and what one
process keeps of another for such an observer (`Kept`): whatever ends in the one
ends in the other with the same observations and the same result. `Kept` is
transitive, so that a sequence of changes is shown to be sound one change at a
time, each by the rule that suits it: lockstep where nothing moves
(`Kept.of_finer`), a simulation where something does (`Kept.of_simulation`).
-/

namespace Beaverc

variable {σ τ υ δ ε ρ ρ' α β : Type}

/-- What is left of a label. -/
def Label.observe (keep : ε → Bool) (view : ρ → ρ') : Label ε ρ α → Option (Label ε ρ' α)
  | .event e => if keep e then some (.event e) else none
  | .exchange r a => some (.exchange (view r) a)

namespace Process

variable {P : Process σ δ ε ρ α β} {Q : Process τ δ ε ρ α β} {keep : ε → Bool} {view : ρ → ρ'}
  {env : ρ' → α → Prop}

theorem observe_events (es : List ε) :
    (es.map (Label.event (ρ := ρ) (α := α))).filterMap (Label.observe keep view) =
      (es.filter keep).map .event := by
  induction es with
  | nil => rfl
  | cons e es ih =>
    rw [List.map_cons, List.filterMap_cons, List.filter_cons, ih]
    cases he : keep e with
    | true => simp only [Label.observe, he, if_true, List.map_cons]
    | false => simp only [Label.observe, he, Bool.false_eq_true, if_false]

/-- What is seen of what is seen. -/
theorem observe_twice {ρ'' : Type} {finer : ε → Bool} {viewed : ρ → ρ''} {rest : ρ'' → ρ'}
    (hkeep : ∀ e, keep e = true → finer e = true) (hview : ∀ r, rest (viewed r) = view r)
    (t : List (Label ε ρ α)) :
    (t.filterMap (Label.observe finer viewed)).filterMap (Label.observe keep rest) =
      t.filterMap (Label.observe keep view) := by
  rw [List.filterMap_filterMap]
  refine congrArg (List.filterMap · t) (funext fun l => ?_)
  cases l with
  | event e =>
    unfold Label.observe
    cases hk : keep e with
    | true => simp [hkeep e hk, hk]
    | false => cases finer e <;> simp [hk]
  | exchange r a => simp [Label.observe, hview]

/-- The runs of the observed process are the runs of the process, observed. -/
theorem observed_run {ok : σ → Prop} {n : Nat} {s s' : σ} {t' : List (Label ε ρ' α)} :
    Run (P.observe keep view) env ok n s t' s' ↔
      ∃ t, Run P (fun r a => env (view r) a) ok n s t s' ∧
        t.filterMap (Label.observe keep view) = t' := by
  constructor
  · intro h
    induction h with
    | refl s => exact ⟨[], .refl s, rfl⟩
    | step hok hs _ ih =>
      obtain ⟨m, hm, he⟩ := observe_ok.mp hs
      cases m with
      | step es s₁ =>
        cases he
        obtain ⟨t, ht, rfl⟩ := ih
        exact ⟨es.map .event ++ t, .step hok hm ht, by rw [List.filterMap_append, observe_events]⟩
      | ask => cases he
      | stop => cases he
    | ask hok hs ha _ ih =>
      obtain ⟨m, hm, he⟩ := observe_ok.mp hs
      cases m with
      | ask r next =>
        cases he
        obtain ⟨t, ht, rfl⟩ := ih
        exact ⟨.exchange r _ :: t, .ask hok hm ha ht, rfl⟩
      | step => cases he
      | stop => cases he
  · rintro ⟨t, h, rfl⟩
    induction h with
    | refl s => exact .refl s
    | step hok hs _ ih =>
      rw [List.filterMap_append, observe_events]
      exact .step hok (observe_ok.mpr ⟨_, hs, rfl⟩) ih
    | ask hok hs ha _ ih => exact .ask hok (observe_ok.mpr ⟨_, hs, rfl⟩) ha ih

theorem observed_stop {s : σ} {b : β} :
    P.observe keep view s = .ok (.stop b) ↔ P s = .ok (.stop b) := by
  rw [observe_ok]
  constructor
  · rintro ⟨m, hm, he⟩
    cases m with
    | stop b' =>
      cases he
      exact hm
    | step => cases he
    | ask => cases he
  · intro h
    exact ⟨_, h, rfl⟩

/-- A run that ends, observed. -/
theorem observed_ends {ok : σ → Prop} {s : σ} {t' : List (Label ε ρ' α)} {b : β} :
    Ends (P.observe keep view) env ok s t' b ↔
      ∃ t, Ends P (fun r a => env (view r) a) ok s t b ∧
        t.filterMap (Label.observe keep view) = t' := by
  constructor
  · rintro ⟨n, s', hr, hok, hs⟩
    obtain ⟨t, ht, he⟩ := observed_run.mp hr
    exact ⟨t, ⟨n, s', ht, hok, observed_stop.mp hs⟩, he⟩
  · rintro ⟨t, ⟨n, s', hr, hok, hs⟩, he⟩
    exact ⟨n, s', observed_run.mpr ⟨t, hr, he⟩, hok, observed_stop.mpr hs⟩

/-- A run that fails, observed. -/
theorem observed_fails {ok : σ → Prop} {s : σ} {t' : List (Label ε ρ' α)} {e : δ} :
    (∃ n, FailsAfter (P.observe keep view) env ok n s t' e) ↔
      ∃ t, (∃ n, FailsAfter P (fun r a => env (view r) a) ok n s t e) ∧
        t.filterMap (Label.observe keep view) = t' := by
  constructor
  · rintro ⟨n, s', hr, hok, hs⟩
    obtain ⟨t, ht, he⟩ := observed_run.mp hr
    exact ⟨t, ⟨n, s', ht, hok, observe_error.mp hs⟩, he⟩
  · rintro ⟨t, ⟨n, s', hr, hok, hs⟩, he⟩
    exact ⟨n, s', observed_run.mpr ⟨t, hr, he⟩, hok, observe_error.mpr hs⟩

/-- A run that ends or fails, observed. -/
theorem finishes_observed {s : σ} {t' : List (Label ε ρ' α)} {o : Except δ β} :
    (∃ n, (P.observe keep view).Finishes env n s t' o) ↔
      ∃ t, (∃ n, P.Finishes (fun r a => env (view r) a) n s t o) ∧
        t.filterMap (Label.observe keep view) = t' := by
  cases o with
  | ok b =>
    simp only [finishes_ok]
    exact observed_ends
  | error e =>
    simp only [finishes_error]
    exact observed_fails

/-! ## What is kept -/

/-- Each state that a run from `s` comes to satisfies `ok`. -/
def Always (P : Process σ δ ε ρ α β) (env : ρ → α → Prop) (ok : σ → Prop) (s : σ) : Prop :=
  ∀ n t s', Run P env (fun _ => True) n s t s' → ok s'

/-- The observer sees of `Q` from `q` what is seen of `P` from `s`: the runs that end, with
their results, and those that fail with one of the `shown` failures. -/
structure Kept (P : Process σ δ ε ρ α β) (Q : Process τ δ ε ρ α β) (keep : ε → Bool) (view : ρ → ρ')
    (env : ρ' → α → Prop) (shown : δ → Prop) (s : σ) (q : τ) : Prop where
  ends : ∀ t b, Ends (P.observe keep view) env (fun _ => True) s t b →
    Ends (Q.observe keep view) env (fun _ => True) q t b
  fails : ∀ t e, shown e → (∃ n, FailsAfter (P.observe keep view) env (fun _ => True) n s t e) →
    ∃ n, FailsAfter (Q.observe keep view) env (fun _ => True) n q t e

theorem Always.mono {env : ρ → α → Prop} {ok ok' : σ → Prop} {s : σ} (h : Always P env ok s)
    (himp : ∀ s, ok s → ok' s) : Always P env ok' s :=
  fun n t s' hr => himp s' (h n t s' hr)

theorem ends_always {ok : σ → Prop} {env : ρ → α → Prop} {s : σ} {t : List (Label ε ρ α)} {b : β}
    (h : Ends P env (fun _ => True) s t b) (hok : Always P env ok s) : Ends P env ok s t b := by
  obtain ⟨n, s', hr, -, hs⟩ := h
  exact ⟨n, s', hr.restrict fun n u s' hr _ => hok n u s' hr, hok n t s' hr, hs⟩

/-- Where two processes move alike in all states of a run, it is a run of both. -/
theorem finishes_agrees {P' : Process σ δ ε ρ α β} {env : ρ → α → Prop} {s : σ}
    (h : Always P env (fun s => P' s = P s) s) {n : Nat} {t : List (Label ε ρ α)}
    {o : Except δ β} (hf : P.Finishes env n s t o) : P'.Finishes env n s t o := by
  have hrun {n : Nat} {s s' : σ} {t : List (Label ε ρ α)}
      (hr : Run P env (fun s => P' s = P s) n s t s') : Run P' env (fun _ => True) n s t s' := by
    induction hr with
    | refl s => exact .refl s
    | step hok hs _ ih => exact .step trivial (hok.trans hs) ih
    | ask hok hs ha _ ih => exact .ask trivial (hok.trans hs) ha ih
  obtain ⟨s', hr, ho⟩ := hf
  exact ⟨s', hrun (hr.restrict fun n u s' hr _ => h n u s' hr), (h n t s' hr).trans ho⟩

theorem fails_always {ok : σ → Prop} {env : ρ → α → Prop} {n : Nat} {s : σ}
    {t : List (Label ε ρ α)} {e : δ} (h : FailsAfter P env (fun _ => True) n s t e)
    (hok : Always P env ok s) : FailsAfter P env ok n s t e := by
  obtain ⟨s', hr, -, hs⟩ := h
  exact ⟨s', hr.restrict fun n u s' hr _ => hok n u s' hr, hok n t s' hr, hs⟩

namespace Kept

variable {shown : δ → Prop}

theorem refl (s : σ) : Kept P P keep view env shown s s :=
  ⟨fun _ _ => id, fun _ _ _ => id⟩

theorem trans {R : Process υ δ ε ρ α β} {s : σ} {q : τ} {u : υ}
    (h₁ : Kept P Q keep view env shown s q) (h₂ : Kept Q R keep view env shown q u) :
    Kept P R keep view env shown s u :=
  ⟨fun t b h => h₂.ends t b (h₁.ends t b h), fun t e he h => h₂.fails t e he (h₁.fails t e he h)⟩

/-- Steps that show nothing may come first. -/
theorem of_silent {s : σ} {q q' : τ} (hq : Silent Q q [] q')
    (h : Kept P Q keep view env shown s q') : Kept P Q keep view env shown s q := by
  obtain ⟨m, hm⟩ := @Silent.run _ _ _ _ _ _ _ (fun r a => env (view r) a) _ _ _ hq
  constructor
  · intro t b hends
    obtain ⟨t₀, ⟨n, q₁, hr, hok, hs⟩, ht⟩ := observed_ends.mp (h.ends t b hends)
    exact observed_ends.mpr ⟨t₀, ⟨_, q₁, hm.trans hr, hok, hs⟩, ht⟩
  · intro t e he hfails
    obtain ⟨t₀, ⟨n, q₁, hr, hok, hs⟩, ht⟩ := observed_fails.mp (h.fails t e he hfails)
    exact observed_fails.mpr ⟨t₀, ⟨_, q₁, hm.trans hr, hok, hs⟩, ht⟩

/-- From a rule about the runs as they are, of which less is hidden than the observer
does not see. -/
theorem of_finer {ρ'' : Type} {ok : σ → Prop} {finer : ε → Bool} {viewed : ρ → ρ''}
    {rest : ρ'' → ρ'} {s : σ} {q : τ}
    (hkeep : ∀ e, keep e = true → finer e = true) (hview : ∀ r, rest (viewed r) = view r)
    (hok : Always P (fun r a => env (view r) a) ok s)
    (h : Mimics (P.observe finer viewed) (Q.observe finer viewed) (fun r a => env (rest r) a) ok
      shown s q) :
    Kept P Q keep view env shown s q := by
  have henv : (fun r a => env (rest (viewed r)) a) = fun (r : ρ) (a : α) => env (view r) a := by
    funext r a
    rw [hview]
  constructor
  · intro t b hends
    obtain ⟨t₀, ht₀, rfl⟩ := observed_ends.mp hends
    have hfine : Ends (P.observe finer viewed) (fun r a => env (rest r) a) ok s
        (t₀.filterMap (Label.observe finer viewed)) b := by
      refine observed_ends.mpr ⟨t₀, ?_, rfl⟩
      rw [henv]
      exact ends_always ht₀ hok
    obtain ⟨n, hn⟩ := hfine
    obtain ⟨t₁, ht₁, he⟩ := observed_ends.mp ⟨n, h.ends n _ b hn⟩
    rw [henv] at ht₁
    refine observed_ends.mpr ⟨t₁, ht₁, ?_⟩
    rw [← observe_twice hkeep hview, he, observe_twice hkeep hview]
  · intro t e hshown hfails
    obtain ⟨t₀, ⟨n₀, ht₀⟩, rfl⟩ := observed_fails.mp hfails
    have hfine : ∃ n, FailsAfter (P.observe finer viewed) (fun r a => env (rest r) a) ok n s
        (t₀.filterMap (Label.observe finer viewed)) e := by
      refine observed_fails.mpr ⟨t₀, ⟨n₀, ?_⟩, rfl⟩
      rw [henv]
      exact fails_always ht₀ hok
    obtain ⟨n, hn⟩ := hfine
    obtain ⟨t₁, ht₁, he⟩ := observed_fails.mp ⟨n, h.fails n _ e hshown hn⟩
    rw [henv] at ht₁
    refine observed_fails.mpr ⟨t₁, ht₁, ?_⟩
    rw [← observe_twice hkeep hview, he, observe_twice hkeep hview]

/-- From a simulation. -/
theorem of_simulation {ok : σ → Prop} {R : σ → τ → Prop} (h : Simulation P Q ok R)
    (stop : ∀ {s q b}, R s q → ok s → P s = .ok (.stop b) →
      ∃ q', Silent Q q [] q' ∧ Q q' = .ok (.stop b))
    (fail : ∀ {s q e}, R s q → ok s → P s = .error e → ∃ q', Silent Q q [] q' ∧ Q q' = .error e)
    {s : σ} {q : τ} (hok : Always P (fun r a => env (view r) a) ok s) (hR : R s q) :
    Kept P Q keep view env shown s q := by
  constructor
  · intro t b hends
    obtain ⟨t₀, ht₀, rfl⟩ := observed_ends.mp hends
    exact observed_ends.mpr ⟨t₀, h.ends stop (ends_always ht₀ hok) hR, rfl⟩
  · intro t e _ hfails
    obtain ⟨t₀, ⟨n₀, ht₀⟩, rfl⟩ := observed_fails.mp hfails
    exact observed_fails.mpr ⟨t₀, h.fails fail (fails_always ht₀ hok) hR, rfl⟩

end Kept

end Process

end Beaverc
