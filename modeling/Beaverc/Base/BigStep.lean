import Beaverc.Base.Calls
import Beaverc.Base.Observation

/-!
# Calls by their results

What a request comes to, told without the stack of a machine: it is answered by what
the state that it starts ends with, where the requests of that are answered in the
same way, to some depth (`Linkage.Answers`). A machine ends with what its first state
ends with when its requests are answered so (`ends_stacked`, `stacked_ends`).
So a process that ends as another does whatever the answers, function by function, can
take its place in the machine (`Replaces.ends`).
-/

namespace Beaverc

variable {σ τ δ ε ρ ρ' α α' β : Type}

/-! ## One process or the other -/

/-- The move of one of two processes. -/
def Move.map (g : σ → τ) : Move σ ε ρ α β → Move τ ε ρ α β
  | .step es s => .step es (g s)
  | .ask r next => .ask r fun a => g (next a)
  | .stop b => .stop b

/-- A process that is in a state of one or of the other. -/
def Process.sum (P : Process σ δ ε ρ α β) (Q : Process τ δ ε ρ α β) :
    Process (σ ⊕ τ) δ ε ρ α β
  | .inl s => (P s).map (Move.map Sum.inl)
  | .inr s => (Q s).map (Move.map Sum.inr)

namespace Process

variable {P : Process σ δ ε ρ α β} {Q : Process τ δ ε ρ α β} {env : ρ → α → Prop}

theorem run_map {R : Process τ δ ε ρ α β} {g : σ → τ} (hg : ∀ s, R (g s) = (P s).map (Move.map g))
    {n : Nat} {s s' : σ} {t : List (Label ε ρ α)} (hr : Run P env (fun _ => True) n s t s') :
    Run R env (fun _ => True) n (g s) t (g s') := by
  induction hr with
  | refl s => exact .refl _
  | step _ hs _ ih =>
    refine .step trivial ?_ ih
    rw [hg, hs]
    rfl
  | @ask _ s _ r a next _ _ hs ha _ ih =>
    have hask : R (g s) = .ok (.ask r fun a => g (next a)) := by
      rw [hg, hs]
      rfl
    exact .ask trivial hask ha ih

theorem ends_map {R : Process τ δ ε ρ α β} {g : σ → τ} (hg : ∀ s, R (g s) = (P s).map (Move.map g))
    {s : σ} {t : List (Label ε ρ α)} {b : β} (h : Ends P env (fun _ => True) s t b) :
    Ends R env (fun _ => True) (g s) t b := by
  obtain ⟨n, s', hr, -, hstop⟩ := h
  refine ⟨n, g s', run_map hg hr, trivial, ?_⟩
  rw [hg, hstop]
  rfl

theorem Ends.sum_inl {s : σ} {t : List (Label ε ρ α)} {b : β}
    (h : Ends P env (fun _ => True) s t b) : Ends (P.sum Q) env (fun _ => True) (.inl s) t b :=
  ends_map (g := Sum.inl) (fun _ => rfl) h

theorem Ends.sum_inr {s : τ} {t : List (Label ε ρ α)} {b : β}
    (h : Ends Q env (fun _ => True) s t b) : Ends (P.sum Q) env (fun _ => True) (.inr s) t b :=
  ends_map (g := Sum.inr) (fun _ => rfl) h

end Process

/-! ## Other answers -/

namespace Process

variable {P : Process σ δ ε ρ α β} {env env' : ρ → α → Prop} {ok : σ → Prop}

/-- The answers that a run gets are answers of another environment. -/
theorem Run.answered {n : Nat} {s s' : σ} {t : List (Label ε ρ α)} (hr : Run P env ok n s t s')
    (h : ∀ {m u s₁ r next a}, Run P env ok m s u s₁ → P s₁ = .ok (.ask r next) → env r a →
      env' r a) : Run P env' ok n s t s' := by
  induction hr with
  | refl s => exact .refl s
  | step hk hs _ ih => exact .step hk hs (ih fun hr => h (.step hk hs hr))
  | ask hk hs ha _ ih => exact .ask hk hs (h (.refl _) hs ha) (ih fun hr => h (.ask hk hs ha hr))

theorem Ends.answered {s : σ} {t : List (Label ε ρ α)} {b : β} (he : Ends P env ok s t b)
    (h : ∀ {m u s₁ r next a}, Run P env ok m s u s₁ → P s₁ = .ok (.ask r next) → env r a →
      env' r a) : Ends P env' ok s t b := by
  obtain ⟨n, s', hr, hs⟩ := he
  exact ⟨n, s', hr.answered h, hs⟩

theorem Always.answered {s : σ} (h : Always P env' ok s) (henv : ∀ r a, env r a → env' r a) :
    Always P env ok s :=
  fun n t s' hr => h n t s' (hr.answered fun _ _ => henv _ _)

/-- A run gets finitely many answers. -/
theorem Run.bounded {A : Nat → ρ → α → Prop}
    (hmono : ∀ {m n r a}, m ≤ n → A m r a → A n r a) {n : Nat} {s s' : σ}
    {t : List (Label ε ρ α)} (hr : Run P (fun r a => ∃ m, A m r a) ok n s t s') :
    ∃ m, Run P (A m) ok n s t s' := by
  induction hr with
  | refl s => exact ⟨0, .refl s⟩
  | step hk hs _ ih =>
    obtain ⟨m, hm⟩ := ih
    exact ⟨m, .step hk hs hm⟩
  | ask hk hs ha _ ih =>
    obtain ⟨k, hk'⟩ := ha
    obtain ⟨m, hm⟩ := ih
    refine ⟨max k m, .ask hk hs (hmono (Nat.le_max_left k m) hk') (hm.answered ?_)⟩
    exact fun _ _ ha => hmono (Nat.le_max_right k m) ha

theorem Ends.step {s s' : σ} {es : List ε} {t : List (Label ε ρ α)} {b : β}
    (hs : P s = .ok (.step es s')) (h : Ends P env (fun _ => True) s' t b) :
    Ends P env (fun _ => True) s (es.map .event ++ t) b := by
  obtain ⟨n, s₁, hr, hstop⟩ := h
  exact ⟨n + 1, s₁, .step trivial hs hr, hstop⟩

theorem Ends.ask {s : σ} {r : ρ} {next : α → σ} {a : α} {t : List (Label ε ρ α)} {b : β}
    (hs : P s = .ok (.ask r next)) (ha : env r a) (h : Ends P env (fun _ => True) (next a) t b) :
    Ends P env (fun _ => True) s (.exchange r a :: t) b := by
  obtain ⟨n, s₁, hr, hstop⟩ := h
  exact ⟨n + 1, s₁, .ask trivial hs ha hr, hstop⟩

end Process

open Process

/-! ## Answers -/

namespace Linkage

/-- `a` is the answer to `r`, if at most `depth` calls are open at a time. -/
def Answers (L : Linkage σ δ ρ α β) (P : Process σ δ ε ρ α β) : Nat → ρ → α → Prop
  | 0, _, _ => False
  | depth + 1, r, a =>
    L.enter r = .ok (.inr a) ∨ ∃ s t b, L.enter r = .ok (.inl s) ∧
      Ends P (L.Answers P depth) (fun _ => True) s t b ∧ a = L.answer b

/-- The same to any depth. -/
def Answered (L : Linkage σ δ ρ α β) (P : Process σ δ ε ρ α β) (r : ρ) (a : α) : Prop :=
  ∃ depth, L.Answers P depth r a

/-- The states that calls start, from the first one on. -/
inductive Entered (L : Linkage σ δ ρ α β) (P : Process σ δ ε ρ α β) (s₀ : σ) : σ → Prop
  | start : Entered L P s₀ s₀
  | call {n : Nat} {s s₁ s₂ : σ} {t : List (Label ε ρ α)} {r : ρ} {next : α → σ} :
      Entered L P s₀ s → Run P (L.Answered P) (fun _ => True) n s t s₁ →
      P s₁ = .ok (.ask r next) → L.enter r = .ok (.inl s₂) → Entered L P s₀ s₂

variable {L : Linkage σ δ ρ α β} {P : Process σ δ ε ρ α β}

theorem answers_succ {depth : Nat} {r : ρ} {a : α} (h : L.Answers P depth r a) :
    L.Answers P (depth + 1) r a := by
  induction depth generalizing r a with
  | zero => exact absurd h id
  | succ depth ih =>
    refine h.imp_right ?_
    rintro ⟨s, t, b, hs, he, ha⟩
    exact ⟨s, t, b, hs, he.answered fun _ _ => ih, ha⟩

theorem answers_mono {m n : Nat} (h : m ≤ n) {r : ρ} {a : α} (ha : L.Answers P m r a) :
    L.Answers P n r a := by
  induction h with
  | refl => exact ha
  | step _ ih => exact answers_succ ih

theorem answers_congr {r r' : ρ} (h : L.enter r = L.enter r') {depth : Nat} {a : α} :
    L.Answers P depth r a ↔ L.Answers P depth r' a := by
  cases depth with
  | zero => exact Iff.rfl
  | succ depth =>
    unfold Answers
    rw [h]

/-! ## The machine -/

/-- Requests that are answered take the machine to where their answers are known. -/
theorem run_stacked {env : ρ' → α' → Prop} {depth n : Nat} {s s' : σ} {t : List (Label ε ρ α)}
    (hr : Run P (L.Answers P depth) (fun _ => True) n s t s') (rest : List (α → σ)) :
    ∃ m u, Run (P.stacked L) env (fun _ => True) m (s, rest) u (s', rest) := by
  induction depth generalizing n s s' t rest with
  | zero =>
    induction hr with
    | refl s => exact ⟨0, [], .refl _⟩
    | step _ hs _ ih =>
      obtain ⟨m, u, hm⟩ := ih
      exact ⟨m + 1, _, .step trivial (Linked.stacked_step hs) hm⟩
    | ask _ _ ha => exact absurd ha id
  | succ depth ihdepth =>
    induction hr with
    | refl s => exact ⟨0, [], .refl _⟩
    | step _ hs _ ih =>
      obtain ⟨m, u, hm⟩ := ih
      exact ⟨m + 1, _, .step trivial (Linked.stacked_step hs) hm⟩
    | @ask n s s'' r a next t _ hs ha _ ih =>
      obtain ⟨m, u, hm⟩ := ih
      rcases ha with hr | ⟨s₁, t₁, b, hr, ⟨k, s₂, hk, -, hstop⟩, rfl⟩
      · exact ⟨m + 1, _, .step trivial (Linked.stacked_answer hs hr) hm⟩
      · obtain ⟨m₁, u₁, hm₁⟩ := ihdepth hk (next :: rest)
        have hback : Run (P.stacked L) env (fun _ => True) _ (s₂, next :: rest) _ (s'', rest) :=
          .step trivial (Linked.stacked_return hstop) hm
        exact ⟨_, _, .step trivial (Linked.stacked_call hs hr) (hm₁.trans hback)⟩

theorem ends_stacked {env : ρ' → α' → Prop} {depth : Nat} {s : σ} {t : List (Label ε ρ α)} {b : β}
    (h : Ends P (L.Answers P depth) (fun _ => True) s t b) :
    ∃ u, Ends (P.stacked L) env (fun _ => True) (s, []) u b := by
  obtain ⟨n, s', hr, -, hstop⟩ := h
  obtain ⟨m, u, hm⟩ : ∃ m u, Run (P.stacked L) env (fun _ => True) m (s, []) u (s', []) :=
    run_stacked hr []
  exact ⟨u, m, _, hm, trivial, Linked.stacked_stop hstop⟩

/-- The state ends, and with its answer what waits for it does, down to the last. -/
def Unwinds (L : Linkage σ δ ρ α β) (P : Process σ δ ε ρ α β) (depth : Nat) :
    σ → List (α → σ) → β → Prop
  | s, [], b => ∃ t, Ends P (L.Answers P depth) (fun _ => True) s t b
  | s, next :: rest, b => ∃ t b₁, Ends P (L.Answers P depth) (fun _ => True) s t b₁ ∧
      Unwinds L P depth (next (L.answer b₁)) rest b

theorem unwinds_front {depth depth' : Nat} (hle : depth ≤ depth') {s s' : σ} {rest : List (α → σ)}
    {b : β} (hfront : ∀ t b, Ends P (L.Answers P depth') (fun _ => True) s' t b →
      ∃ u, Ends P (L.Answers P depth') (fun _ => True) s u b)
    (h : Unwinds L P depth s' rest b) : Unwinds L P depth' s rest b := by
  have hmono : ∀ {s t b}, Ends P (L.Answers P depth) (fun _ => True) s t b →
      Ends P (L.Answers P depth') (fun _ => True) s t b :=
    fun he => he.answered fun _ _ => answers_mono hle
  induction rest generalizing s s' with
  | nil =>
    obtain ⟨t, ht⟩ := h
    exact hfront t b (hmono ht)
  | cons next rest ih =>
    obtain ⟨t, b₁, ht, hrest⟩ := h
    obtain ⟨u, hu⟩ := hfront t b₁ (hmono ht)
    exact ⟨u, b₁, hu, ih (fun t b he => ⟨t, he⟩) hrest⟩

/-- A machine that ends has all its open calls end. -/
theorem unwinds_of_run {env : ρ' → α' → Prop} {n : Nat} {s s' : σ} {rest : List (α → σ)}
    {t : List (Label ε ρ' α')} {b : β}
    (hr : Run (P.stacked L) env (fun _ => True) n (s, rest) t (s', []))
    (hstop : P s' = .ok (.stop b)) : ∃ depth, Unwinds L P depth s rest b := by
  induction n generalizing s rest t with
  | zero =>
    cases hr
    exact ⟨0, [], 0, s', .refl s', trivial, hstop⟩
  | succ n ih =>
    cases hs : P s with
    | error e =>
      cases hr with
      | step _ hm => rw [Linked.stacked_error hs] at hm; cases hm
      | ask _ hm => rw [Linked.stacked_error hs] at hm; cases hm
    | ok m =>
      cases m with
      | step es s₁ =>
        cases hr with
        | step _ hm hr =>
          rw [Linked.stacked_step hs] at hm
          cases hm
          obtain ⟨depth, h⟩ := ih hr
          exact ⟨depth, unwinds_front (Nat.le_refl _) (fun t b he => ⟨_, he.step hs⟩) h⟩
        | ask _ hm => rw [Linked.stacked_step hs] at hm; cases hm
      | ask r next =>
        cases he : L.enter r with
        | error e =>
          cases hr with
          | step _ hm => rw [Linked.stacked_fails hs he] at hm; cases hm
          | ask _ hm => rw [Linked.stacked_fails hs he] at hm; cases hm
        | ok x =>
          cases x with
          | inr a =>
            cases hr with
            | step _ hm hr =>
              rw [Linked.stacked_answer hs he] at hm
              cases hm
              obtain ⟨depth, h⟩ := ih hr
              refine ⟨depth + 1, unwinds_front (Nat.le_succ depth) (fun t b hends => ?_) h⟩
              exact ⟨_, hends.ask hs (.inl he)⟩
            | ask _ hm => rw [Linked.stacked_answer hs he] at hm; cases hm
          | inl s₁ =>
            cases hr with
            | step _ hm hr =>
              rw [Linked.stacked_call hs he] at hm
              cases hm
              obtain ⟨depth, t₁, b₁, hends₁, h⟩ := ih hr
              refine ⟨depth + 1, unwinds_front (Nat.le_succ depth) (fun t b hends => ?_) h⟩
              exact ⟨_, hends.ask hs (.inr ⟨s₁, t₁, b₁, he, hends₁, rfl⟩)⟩
            | ask _ hm => rw [Linked.stacked_call hs he] at hm; cases hm
      | stop b₁ =>
        cases rest with
        | nil =>
          cases hr with
          | step _ hm => rw [Linked.stacked_stop hs] at hm; cases hm
          | ask _ hm => rw [Linked.stacked_stop hs] at hm; cases hm
        | cons next rest =>
          cases hr with
          | step _ hm hr =>
            rw [Linked.stacked_return hs] at hm
            cases hm
            obtain ⟨depth, h⟩ := ih hr
            exact ⟨depth, [], b₁, ⟨0, s, .refl s, trivial, hs⟩, h⟩
          | ask _ hm => rw [Linked.stacked_return hs] at hm; cases hm

theorem stacked_stops {s : σ} {rest : List (α → σ)} {b : β}
    (h : (P.stacked L : Process _ δ ε ρ' α' β) (s, rest) = .ok (.stop b)) :
    rest = [] ∧ P s = .ok (.stop b) := by
  cases hs : P s with
  | error e =>
    rw [Linked.stacked_error hs] at h
    cases h
  | ok m =>
    cases m with
    | step es s' =>
      rw [Linked.stacked_step hs] at h
      cases h
    | ask r next =>
      cases he : L.enter r with
      | error e =>
        rw [Linked.stacked_fails hs he] at h
        cases h
      | ok x =>
        cases x with
        | inl s' =>
          rw [Linked.stacked_call hs he] at h
          cases h
        | inr a =>
          rw [Linked.stacked_answer hs he] at h
          cases h
    | stop b₁ =>
      cases rest with
      | nil =>
        rw [Linked.stacked_stop hs] at h
        cases h
        exact ⟨rfl, rfl⟩
      | cons next rest =>
        rw [Linked.stacked_return hs] at h
        cases h

theorem stacked_ends {env : ρ' → α' → Prop} {s : σ} {t : List (Label ε ρ' α')} {b : β}
    (h : Ends (P.stacked L) env (fun _ => True) (s, []) t b) :
    ∃ depth u, Ends P (L.Answers P depth) (fun _ => True) s u b := by
  obtain ⟨n, ⟨s', rest⟩, hr, -, hstop⟩ := h
  obtain ⟨rfl, hs⟩ := stacked_stops hstop
  exact unwinds_of_run hr hs

end Linkage

/-! ## A process in the place of another -/

/-- From the states that `s₀` leads to, `Q` ends as `P` does, whatever the answers among those
that `P` can get. `view` leaves out of a request what does not matter. -/
structure Replaces (L : Linkage σ δ ρ α β) (P : Process σ δ ε ρ α β) (L' : Linkage τ δ ρ α β)
    (Q : Process τ δ ε ρ α β) (view : ρ → ρ) (g : σ → τ) (s₀ : σ) : Prop where
  viewed : ∀ r, L.enter (view r) = L.enter r
  enter : ∀ r, L'.enter r = (L.enter r).map (Sum.map g id)
  answer : ∀ b, L'.answer b = L.answer b
  same : ∀ s, L.Entered P s₀ s → ∀ env : ρ → α → Prop, (∀ r a, env r a → L.Answered P r a) →
    (∀ r a, env (view r) a ↔ env r a) → ∀ t b, Ends P env (fun _ => True) s t b →
    ∃ u, Ends Q env (fun _ => True) (g s) u b

namespace Replaces

variable {L : Linkage σ δ ρ α β} {P : Process σ δ ε ρ α β} {L' : Linkage τ δ ρ α β}
  {Q : Process τ δ ε ρ α β} {view : ρ → ρ} {g : σ → τ} {s₀ : σ}

theorem answered_view (h : Replaces L P L' Q view g s₀) (r : ρ) (a : α) :
    L'.Answered Q (view r) a ↔ L'.Answered Q r a := by
  have henter : L'.enter (view r) = L'.enter r := by
    rw [h.enter, h.enter, h.viewed]
  exact exists_congr fun _ => Linkage.answers_congr henter

/-- If what answers the requests of a call of `P` answers them for `Q`, the call ends as it
does there. -/
theorem ends_call (h : Replaces L P L' Q view g s₀) {depth : Nat} {s : σ} (hs : L.Entered P s₀ s)
    (hanswers : ∀ {n u s₁ r next a}, Run P (L.Answers P depth) (fun _ => True) n s u s₁ →
      P s₁ = .ok (.ask r next) → L.Answers P depth r a → L'.Answered Q r a)
    {t : List (Label ε ρ α)} {b : β} (he : Ends P (L.Answers P depth) (fun _ => True) s t b) :
    ∃ m u, Ends Q (L'.Answers Q m) (fun _ => True) (g s) u b := by
  have hboth : Ends P (fun r a => L.Answers P depth r a ∧ L'.Answered Q r a) (fun _ => True) s t
      b := he.answered fun hr hask ha => ⟨ha, hanswers hr hask ha⟩
  obtain ⟨u, hu⟩ := h.same s hs _ (fun r a ha => ⟨depth, ha.1⟩)
    (fun r a => and_congr (Linkage.answers_congr (h.viewed r)) (h.answered_view r a)) t b hboth
  have hq : Ends Q (L'.Answered Q) (fun _ => True) (g s) u b := hu.answered fun _ _ ha => ha.2
  obtain ⟨n, s', hr, hstop⟩ := hq
  obtain ⟨m, hm⟩ := hr.bounded (A := L'.Answers Q) fun hle ha =>
    Linkage.answers_mono hle ha
  exact ⟨m, u, n, s', hm, hstop⟩

/-- The calls of `Q` end as those of `P` do. The induction is on the depth of the calls. -/
theorem ends (h : Replaces L P L' Q view g s₀) {depth : Nat} {s : σ} (hs : L.Entered P s₀ s)
    {t : List (Label ε ρ α)} {b : β} (he : Ends P (L.Answers P depth) (fun _ => True) s t b) :
    ∃ m u, Ends Q (L'.Answers Q m) (fun _ => True) (g s) u b := by
  induction depth generalizing s t b with
  | zero => exact h.ends_call hs (fun _ _ ha => absurd ha id) he
  | succ depth ih =>
    refine h.ends_call hs (fun {n u s₁ r next a} hr hask ha => ?_) he
    rcases ha with henter | ⟨s₂, t₂, b₂, henter, he₂, rfl⟩
    · refine ⟨1, .inl ?_⟩
      rw [h.enter, henter]
      rfl
    · have hentered : L.Entered P s₀ s₂ :=
        .call hs (hr.answered fun _ _ ha => ⟨depth + 1, ha⟩) hask henter
      obtain ⟨m, u₂, hu₂⟩ := ih hentered he₂
      refine ⟨m + 1, .inr ⟨g s₂, u₂, b₂, ?_, hu₂, (h.answer b₂).symm⟩⟩
      rw [h.enter, henter]
      rfl

/-- The machine over `Q` ends as that over `P` does. -/
theorem stacked (h : Replaces L P L' Q view g s₀) {env : ρ' → α' → Prop}
    {t : List (Label ε ρ' α')} {b : β}
    (he : Ends (P.stacked L) env (fun _ => True) (s₀, []) t b) :
    ∃ u, Ends (Q.stacked L' : Process _ δ ε ρ' α' β) env (fun _ => True) (g s₀, []) u b := by
  obtain ⟨depth, t₁, he₁⟩ := Linkage.stacked_ends he
  obtain ⟨m, u, hu⟩ := h.ends .start he₁
  exact Linkage.ends_stacked hu

end Replaces

end Beaverc
