import Beaverc.Base.Evaluations

/-!
# States that only grow

A computation whose state keeps an invariant and never loses what it had. A result
may refer to the state it comes with, and keeps its meaning in all states after it.
-/

namespace Beaverc.Evaluations.Eval

variable {σ ε ι α β : Type}

/-- From `s`, `m` keeps `I` and records what is as in `G`. Where it ends, the state
has grown as `R` says and the result is as in `good` there. -/
structure Grows (I : σ → Prop) (R : σ → σ → Prop) (G : ι → Prop) (m : Eval σ ε ι α) (s : σ)
    (good : α → σ → Prop) : Prop where
  kept : I (m.after s)
  ends : ∀ a, m.outcome s = .ok a → R s (m.after s) ∧ good a (m.after s)
  events : ∀ e ∈ CallTree.eventsAll (m.trees s), G e

variable {I : σ → Prop} {R R' : σ → σ → Prop} {G : ι → Prop} {m : Eval σ ε ι α}
  {f : α → Eval σ ε ι β} {s : σ} {good good' : α → σ → Prop} {fine : β → σ → Prop}

theorem grows_pure {a : α} (hs : I s) (hR : R s s) (h : good a s) :
    Grows I R G (pure a : Eval σ ε ι α) s good :=
  ⟨hs, fun b hb => by cases hb; exact ⟨hR, h⟩, nofun⟩

theorem grows_get (hs : I s) (hR : R s s) :
    Grows I R G (get : Eval σ ε ι σ) s fun a s' => a = s ∧ s' = s :=
  ⟨hs, fun b hb => by cases hb; exact ⟨hR, rfl, rfl⟩, nofun⟩

theorem grows_modify {g : σ → σ} (hs : I (g s)) (hR : R s (g s)) :
    Grows I R G (modify g : Eval σ ε ι Unit) s fun _ s' => s' = g s :=
  ⟨hs, fun _ _ => ⟨hR, rfl⟩, nofun⟩

theorem grows_stop (e : ε) (hs : I s) : Grows I R G (stop e : Eval σ ε ι α) s good :=
  ⟨hs, nofun, nofun⟩

theorem grows_mark {l : ι} (hs : I s) (hR : R s s) (h : G l) :
    Grows I R G (mark l : Eval σ ε ι Unit) s fun _ s' => s' = s := by
  refine ⟨hs, fun _ _ => ⟨hR, rfl⟩, fun e he => ?_⟩
  rw [trees_mark] at he
  cases List.mem_singleton.mp he
  exact h

theorem grows_mono (h : Grows I R G m s good)
    (hg : ∀ a s', I s' → R s s' → good a s' → R' s s' ∧ good' a s') : Grows I R' G m s good' :=
  ⟨h.kept, fun a ha => hg a _ h.kept (h.ends a ha).1 (h.ends a ha).2, h.events⟩

theorem grows_bind (hR : ∀ {s s' s''}, R s s' → R s' s'' → R s s'') (hm : Grows I R G m s good)
    (hf : ∀ a s', I s' → R s s' → good a s' → Grows I R G (f a) s' fine) :
    Grows I R G (m >>= f) s fine := by
  cases ho : m.outcome s with
  | error e =>
    obtain ⟨hout, hafter, htrees⟩ := bind_error f ho
    refine ⟨hafter ▸ hm.kept, fun b hb => ?_, fun e he => hm.events e (htrees ▸ he)⟩
    rw [hout] at hb
    cases hb
  | ok a =>
    obtain ⟨hout, hafter, htrees⟩ := bind_ok f ho
    obtain ⟨hgrown, ha⟩ := hm.ends a ho
    have hrest := hf a _ hm.kept hgrown ha
    refine ⟨hafter ▸ hrest.kept, fun b hb => ?_, fun e he => ?_⟩
    · rw [hout] at hb
      obtain ⟨hgrown', hb⟩ := hrest.ends b hb
      rw [hafter]
      exact ⟨hR hgrown hgrown', hb⟩
    · rw [htrees, CallTree.eventsAll_append] at he
      rcases List.mem_append.mp he with he | he
      · exact hm.events e he
      · exact hrest.events e he

/-- One recorded evaluation. -/
theorem grows_record {label : σ → Except ε α → ι} (h : Grows I R G m s good)
    (hl : ∀ r, G (label s r)) : Grows I R G (record label m) s good := by
  refine ⟨h.kept, h.ends, fun e he => ?_⟩
  rw [trees_record, CallTree.eventsAll, CallTree.events, CallTree.eventsAll, List.append_nil] at he
  rcases List.mem_cons.mp he with rfl | he
  · exact hl _
  · exact h.events e he

end Beaverc.Evaluations.Eval
