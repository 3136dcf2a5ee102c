import Beaverc.Base.Process
import Beaverc.Base.Results

/-!
# Requests that fail

A request may be answered by a failure in the place of a value: the process that asked
then fails with it. A failure simulation of two processes is one of their failures
through requests as well (`FailureSimulation.raising`).
-/

namespace Beaverc
open Process

variable {σ τ δ ε ρ α β : Type}

/-- A move of a process that goes on as long as nothing has failed. -/
def Move.raising : Move σ ε ρ α β → Move (Except δ σ) ε ρ (Except δ α) β
  | .step es s => .step es (.ok s)
  | .ask r next => .ask r fun a => a.map next
  | .stop b => .stop b

/-- The process as one whose requests can fail. -/
def Process.raising (P : Process σ δ ε ρ α β) : Process (Except δ σ) δ ε ρ (Except δ α) β
  | .ok s => (P s).map Move.raising
  | .error e => .error e

/-- A property of the states in which nothing has failed. -/
def WhenOk (ok : σ → Prop) (s : Except δ σ) : Prop :=
  ∀ s₀, s = .ok s₀ → ok s₀

/-- A state that has failed is at the end. -/
def rankOk (rank : σ → Nat) : Except δ σ → Nat
  | .ok s => rank s
  | .error _ => 0

namespace RaisingLemmas

variable {P : Process σ δ ε ρ α β} {Q : Process τ δ ε ρ α β}

theorem raising_ok (s : σ) : P.raising (.ok s) = (P s).map Move.raising :=
  rfl

theorem raising_of {s : σ} {m : Move σ ε ρ α β} (h : P s = .ok m) :
    P.raising (.ok s) = .ok m.raising := by
  rw [raising_ok, h]
  rfl

theorem raising_error {s : σ} {e : δ} : P.raising (.ok s) = .error e ↔ P s = .error e := by
  rw [raising_ok]
  cases P s with
  | error e' =>
    refine ⟨fun h => ?_, fun h => ?_⟩
    · cases h
      rfl
    · cases h
      rfl
  | ok m => exact ⟨nofun, nofun⟩

theorem raising_step {s : σ} {es : List ε} {s' : Except δ σ}
    (h : P.raising (.ok s) = .ok (.step es s')) : ∃ s₁, s' = .ok s₁ ∧ P s = .ok (.step es s₁) := by
  obtain ⟨m, hm, he⟩ := Results.map_ok.mp h
  cases m with
  | step es₁ s₁ =>
    cases he
    exact ⟨s₁, rfl, hm⟩
  | _ => cases he

theorem raising_ask {s : σ} {r : ρ} {next : Except δ α → Except δ σ}
    (h : P.raising (.ok s) = .ok (.ask r next)) :
    ∃ next₁, (next = fun a => a.map next₁) ∧ P s = .ok (.ask r next₁) := by
  obtain ⟨m, hm, he⟩ := Results.map_ok.mp h
  cases m with
  | ask r₁ next₁ =>
    cases he
    exact ⟨next₁, rfl, hm⟩
  | _ => cases he

theorem raising_stop {s : σ} {b : β} (h : P.raising (.ok s) = .ok (.stop b)) :
    P s = .ok (.stop b) := by
  obtain ⟨m, hm, he⟩ := Results.map_ok.mp h
  cases m with
  | stop b₁ =>
    cases he
    exact hm
  | _ => cases he

theorem silent_raising {s s' : σ} {es : List ε} (h : Silent P s es s') :
    Silent P.raising (.ok s) es (.ok s') := by
  induction h with
  | refl s => exact .refl _
  | step hs _ ih => exact .step (raising_of hs) ih

end RaisingLemmas

open RaisingLemmas

/-- Processes that fail alike fail alike through their requests. -/
theorem FailureSimulation.raising {P : Process σ δ ε ρ α β} {Q : Process τ δ ε ρ α β}
    {ok : σ → Prop} {shown : δ → Prop} {rank : σ → Nat} {R : σ → τ → Prop}
    (h : FailureSimulation P Q ok shown rank R) :
    FailureSimulation P.raising Q.raising (WhenOk ok) shown (rankOk rank)
      (Results.Agree (fun _ => False) R) where
  step hR hok hs := by
    cases hR with
    | error => cases hs
    | ok hR =>
      obtain ⟨s₁, rfl, hP⟩ := raising_step hs
      obtain ⟨q₁, hq, hR₁⟩ := h.step hR (hok _ rfl) hP
      exact ⟨_, silent_raising hq, .ok hR₁⟩
  ask hR hok hs := by
    cases hR with
    | error => cases hs
    | ok hR =>
      obtain ⟨next₁, rfl, hP⟩ := raising_ask hs
      obtain ⟨q₁, next', hq, hask, hnext⟩ := h.ask hR (hok _ rfl) hP
      refine ⟨_, _, silent_raising hq, raising_of hask, fun a => ?_⟩
      cases a with
      | error e => exact ⟨_, .refl _, .error id⟩
      | ok a =>
        obtain ⟨q₂, hq₂, hR₂⟩ := hnext a
        exact ⟨_, silent_raising hq₂, .ok hR₂⟩
  fail hR hok hs := by
    cases hR with
    | error =>
      cases hs
      exact ⟨_, .refl _, rfl⟩
    | ok hR =>
      obtain ⟨q₁, hq, herr⟩ := h.fail hR (hok _ rfl) (raising_error.mp hs)
      exact ⟨_, silent_raising hq, raising_error.mpr herr⟩
  stop hR hok hs := by
    cases hR with
    | error => cases hs
    | ok hR =>
      rcases h.stop hR (hok _ rfl) (raising_stop hs) with ⟨b', hb⟩ | ⟨e, he, herr⟩
      · exact .inl ⟨b', raising_of hb⟩
      · exact .inr ⟨e, he, raising_error.mpr herr⟩
  rank_lt hR hR' hok hs := by
    cases hR with
    | error => cases hs
    | ok hR =>
      obtain ⟨s₁, rfl, hP⟩ := raising_step hs
      cases hR' with
      | ok hR' => exact h.rank_lt hR hR' (hok _ rfl) hP

end Beaverc
