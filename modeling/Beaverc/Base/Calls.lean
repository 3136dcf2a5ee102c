import Beaverc.Base.Behaviors
import Beaverc.Base.Results

/-!
# Processes that call each other

The requests of a process can be calls, each of which starts the process again.
A machine then keeps a stack of what goes on after the calls (`Process.stacked`),
and a meaning is a tree whose requests are replaced by the trees of what they
call, to a bounded depth (`Behavior.handle`, `Linkage.calls`). `Linked.exhibits`
says that the machine behaves as these trees do, given that each function does
on its own. It rests on an invariant of the states, since what is known of the
functions has to be known of those that are reached by a call.
-/

namespace Beaverc

variable {σ δ ε ρ ρ' α α' β : Type}

namespace Behavior

/-- The requests of a tree are answered by trees. -/
def handle (answer : ρ → Behavior δ ε ρ' α' α) : Behavior δ ε ρ α β → Behavior δ ε ρ' α' β
  | .done b => .done b
  | .fail e => .fail e
  | .more => .more
  | .act e rest => .act e (rest.handle answer)
  | .ask r next => (answer r).bind fun a => (next a).handle answer

theorem handle_acts (answer : ρ → Behavior δ ε ρ' α' α) (es : List ε) (T : Behavior δ ε ρ α β) :
    (acts es T).handle answer = acts es (T.handle answer) := by
  induction es with
  | nil => rfl
  | cons e es ih => exact congrArg (act e) ih

/-- What a tree without requests ends with, unless it is cut off. -/
def outcome : Behavior δ ε Empty α β → Option (Except δ β)
  | .done b => some (.ok b)
  | .fail e => some (.error e)
  | .more => none
  | .act _ rest => rest.outcome
  | .ask _ _ => none

theorem path_iff_outcome {env : Empty → α → Prop} {T : Behavior δ ε Empty α β}
    {o : Except δ β} : (∃ t, Path env T t o) ↔ T.outcome = some o := by
  induction T with
  | done b =>
    constructor
    · rintro ⟨t, h⟩
      cases h
      rfl
    · intro h
      cases h
      exact ⟨[], .done b⟩
  | fail e =>
    constructor
    · rintro ⟨t, h⟩
      cases h
      rfl
    · intro h
      cases h
      exact ⟨[], .fail e⟩
  | more =>
    constructor
    · rintro ⟨t, h⟩
      cases h
    · intro h
      cases h
  | act e rest ih =>
    refine Iff.trans ?_ ih
    constructor
    · rintro ⟨t, h⟩
      cases h with
      | act h' => exact ⟨_, h'⟩
    · rintro ⟨t, h⟩
      exact ⟨_, .act h⟩
  | ask r next => exact r.elim

end Behavior

/-- How requests are met: by a state in which the process is started, or by an
answer at once; and the answer that the end of a call gives. -/
structure Linkage (σ δ ρ α β : Type) where
  enter : ρ → Except δ (σ ⊕ α)
  answer : β → α

/-- What the requests mean: `M` is the meaning of the states that are entered,
and at most `depth` calls are open at a time. -/
def Linkage.calls (L : Linkage σ δ ρ α β) (M : σ → Behavior δ ε ρ α β) :
    Nat → ρ → Behavior δ ε ρ' α' α
  | 0, _ => .more
  | depth + 1, r =>
    match L.enter r with
    | .error e => .fail e
    | .ok (.inr a) => .done a
    | .ok (.inl s) => ((M s).handle (calls L M depth)).bind fun b => .done (L.answer b)

/-- The machine: the running state and what goes on after the open calls, the
latest first. -/
def Process.stacked (P : Process σ δ ε ρ α β) (L : Linkage σ δ ρ α β) :
    Process (σ × List (α → σ)) δ ε ρ' α' β := fun s => do
  match ← P s.1 with
  | .step es s' => .ok (.step es (s', s.2))
  | .ask r next =>
    match ← L.enter r with
    | .inl s' => .ok (.step [] (s', next :: s.2))
    | .inr a => .ok (.step [] (next a, s.2))
  | .stop b =>
    match s.2 with
    | [] => .ok (.stop b)
    | next :: rest => .ok (.step [] (next (L.answer b), rest))

/-- `Inv` holds of the states of a process and of those it starts, and `Entry` of
the latter, as long as the answers satisfy `Good`. -/
structure Linked (P : Process σ δ ε ρ α β) (L : Linkage σ δ ρ α β) (Inv Entry : σ → Prop)
    (Good : α → Prop) : Prop where
  step {s s' : σ} {es : List ε} : Inv s → P s = .ok (.step es s') → Inv s'
  next {s : σ} {r : ρ} {next : α → σ} {a : α} :
    Inv s → P s = .ok (.ask r next) → Good a → Inv (next a)
  enter {s s' : σ} {r : ρ} {next : α → σ} :
    Inv s → P s = .ok (.ask r next) → L.enter r = .ok (.inl s') → Inv s' ∧ Entry s'
  answer {s : σ} {r : ρ} {next : α → σ} {a : α} :
    Inv s → P s = .ok (.ask r next) → L.enter r = .ok (.inr a) → Good a
  stop {s : σ} {b : β} : Inv s → P s = .ok (.stop b) → Good (L.answer b)

namespace Linked

open Process Behavior

variable {P : Process σ δ ε ρ α β} {L : Linkage σ δ ρ α β} {Inv Entry : σ → Prop}
  {Good : α → Prop} {M : σ → Behavior δ ε ρ α β} {n : Nat}

variable {s s' : σ} {rest : List (α → σ)}

theorem stacked_step {es : List ε} (hs : P s = .ok (.step es s')) :
    (P.stacked L : Process _ δ ε ρ' α' β) (s, rest) = .ok (.step es (s', rest)) := by
  unfold stacked
  rw [hs]
  rfl

theorem stacked_error {e : δ} (hs : P s = .error e) :
    (P.stacked L : Process _ δ ε ρ' α' β) (s, rest) = .error e := by
  unfold stacked
  rw [hs]
  rfl

theorem stacked_fails {r : ρ} {next : α → σ} {e : δ} (hs : P s = .ok (.ask r next))
    (hr : L.enter r = .error e) :
    (P.stacked L : Process _ δ ε ρ' α' β) (s, rest) = .error e := by
  unfold stacked
  rw [hs]
  simp only [Results.ok_bind, hr, Results.error_bind]

theorem stacked_call {r : ρ} {next : α → σ} (hs : P s = .ok (.ask r next))
    (hr : L.enter r = .ok (.inl s')) :
    (P.stacked L : Process _ δ ε ρ' α' β) (s, rest) = .ok (.step [] (s', next :: rest)) := by
  unfold stacked
  rw [hs]
  simp only [Results.ok_bind, hr]

theorem stacked_answer {r : ρ} {next : α → σ} {a : α} (hs : P s = .ok (.ask r next))
    (hr : L.enter r = .ok (.inr a)) :
    (P.stacked L : Process _ δ ε ρ' α' β) (s, rest) = .ok (.step [] (next a, rest)) := by
  unfold stacked
  rw [hs]
  simp only [Results.ok_bind, hr]

theorem stacked_return {next : α → σ} {b : β} (hs : P s = .ok (.stop b)) :
    (P.stacked L : Process _ δ ε ρ' α' β) (s, next :: rest) =
      .ok (.step [] (next (L.answer b), rest)) := by
  unfold stacked
  rw [hs]
  rfl

theorem stacked_stop {b : β} (hs : P s = .ok (.stop b)) :
    (P.stacked L : Process _ δ ε ρ' α' β) (s, []) = .ok (.stop b) := by
  unfold stacked
  rw [hs]
  rfl

/-- The rest of a function and of those that wait for it: `K` is what the latter
do with its result. The induction is on the depth of the calls, and for each
depth along the tree of the function. -/
theorem exhibits_rest (h : Linked P L Inv Entry Good)
    (hM : ∀ s, Inv s → Entry s → P.Exhibits n s (M s)) (depth : Nat) {k m : Nat} {s : σ}
    {T : Behavior δ ε ρ α β} (hT : P.Exhibits k s T) (hk : m ≤ k) (hn : m ≤ n) (hd : m ≤ depth)
    (hs : Inv s) {rest : List (α → σ)} {K : β → Behavior δ ε ρ' α' β}
    (hK : ∀ b s', Inv s' → P s' = .ok (.stop b) → (P.stacked L).Exhibits m (s', rest) (K b)) :
    (P.stacked L).Exhibits m (s, rest) ((T.handle (L.calls M depth)).bind K) := by
  induction depth generalizing k m s T rest K with
  | zero =>
    obtain rfl : m = 0 := Nat.le_zero.mp hd
    induction hT with
    | cut => exact .cut _
    | stop hstop => exact hK _ _ hs hstop
    | fail hfail => exact .fail (stacked_error hfail)
    | step hstep _ _ ih =>
      rw [handle_acts, bind_acts]
      exact .step (stacked_step hstep) (Nat.zero_le _) (ih (h.step hs hstep) (Nat.zero_le _))
    | ask => exact .cut _
  | succ depth ihdepth =>
    induction hT generalizing m with
    | cut =>
      rw [Nat.le_zero.mp hk]
      exact .cut _
    | stop hstop => exact hK _ _ hs hstop
    | fail hfail => exact .fail (stacked_error hfail)
    | step hstep hle _ ih =>
      rw [handle_acts, bind_acts]
      exact .step (stacked_step hstep) (Nat.le_add_of_sub_le (Nat.le_refl _))
        (ih (by omega) (by omega) (by omega) (h.step hs hstep)
          fun b s' hs' hb => (hK b s' hs' hb).mono (Nat.sub_le m 1))
    | @ask k₀ k s r next tree hask hle _ ih =>
      have hle' : m ≤ m - 1 + 1 := Nat.le_add_of_sub_le (Nat.le_refl _)
      have hrest : ∀ j, j ≤ m - 1 → ∀ a, Good a → (P.stacked L).Exhibits j (next a, rest)
          (((tree a).handle (L.calls M (depth + 1))).bind K) := fun j hj a ha =>
        ih a (by omega) (by omega) (by omega) (h.next hs hask ha)
          fun b s' hs' hb => (hK b s' hs' hb).mono (by omega)
      show Exhibits _ _ _ (((L.calls M (depth + 1) r).bind _).bind K)
      rw [Behavior.bind_assoc, Linkage.calls]
      split
      · next e he => exact .fail (stacked_fails hask he)
      · next a ha =>
        exact .step (stacked_answer hask ha) hle' (hrest _ (Nat.le_refl _) a (h.answer hs hask ha))
      · next s₁ hs₁ =>
        obtain ⟨hinv, hentry⟩ := h.enter hs hask hs₁
        rw [Behavior.bind_assoc]
        refine .step (stacked_call hask hs₁) hle' (ihdepth (hM s₁ hinv hentry) (by omega) (by omega)
          (by omega) hinv fun b s₂ hs₂ hb => ?_)
        exact .step (stacked_return hb) (Nat.le_add_of_sub_le (Nat.le_refl _))
          (hrest _ (Nat.sub_le _ _) _ (h.stop hs₂ hb))

/-- A machine behaves as the meanings of its functions say, put together: for
`n` moves, if the calls are followed to the depth `n`. -/
theorem exhibits (h : Linked P L Inv Entry Good)
    (hM : ∀ s, Inv s → Entry s → P.Exhibits n s (M s)) {T : Behavior δ ε ρ α β}
    (hT : P.Exhibits n s T) (hs : Inv s) :
    (P.stacked L : Process _ δ ε ρ' α' β).Exhibits n (s, []) (T.handle (L.calls M n)) := by
  rw [← bind_done (T.handle (L.calls M n))]
  exact h.exhibits_rest hM n hT (Nat.le_refl n) (Nat.le_refl n) (Nat.le_refl n) hs
    fun b s' _ hb => .stop (stacked_stop hb)

end Linked

end Beaverc
