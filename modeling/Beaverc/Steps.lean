import Beaverc.Interpreter
import Beaverc.Base.Results

/-!
# The steps of the interpreter

When the pieces of `run_function` succeed, and what a move of a running
function comes from.
-/

namespace Beaverc.StepsLemmas
open Process Results

theorem safeIndex_ok {α : Type} {l : List α} {k : Nat} {x : α} :
    safeIndex l k = .ok x ↔ l[k]? = some x := by
  unfold safeIndex
  cases l[k]? <;> simp

theorem rawIndex_ok {α : Type} {l : List α} {k : Nat} {x : α} :
    rawIndex l k = .ok x ↔ l[k]? = some x := by
  unfold rawIndex
  cases l[k]? <;> simp

theorem load_ok {a : Action} {stack : List Value} {w : World} {fr : Frame} {o : Outcome} :
    fr.load a stack w = .ok o ↔ ∃ v w', perform a w = .ok (v, w') ∧
      o = .next (fr.advance (v :: stack)) w' (some (.act a)) := by
  unfold Frame.load
  rw [bind_ok]
  constructor
  · rintro ⟨⟨v, w'⟩, h, ho⟩
    exact ⟨v, w', h, (Except.ok.inj ho).symm⟩
  · rintro ⟨v, w', h, rfl⟩
    exact ⟨(v, w'), h, rfl⟩

theorem store_ok {a : Action} {stack : List Value} {w : World} {fr : Frame} {o : Outcome} :
    fr.store a stack w = .ok o ↔ ∃ v w', perform a w = .ok (v, w') ∧
      o = .next (fr.advance stack) w' (some (.act a)) := by
  unfold Frame.store
  rw [bind_ok]
  constructor
  · rintro ⟨⟨v, w'⟩, h, ho⟩
    exact ⟨v, w', h, (Except.ok.inj ho).symm⟩
  · rintro ⟨v, w', h, rfl⟩
    exact ⟨(v, w'), h, rfl⟩

theorem popMany_ok {α : Type} {check : Except Stop α} {n : Nat} {stack : List Value}
    {r : List Value × List Value} :
    Frame.popMany check n stack = .ok r ↔ n ≤ stack.length ∧ r = (stack.take n, stack.drop n) := by
  unfold Frame.popMany
  split
  · next h => simp [h, eq_comm]
  · next h =>
    refine ⟨fun hr => ?_, fun hr => absurd hr.1 h⟩
    obtain ⟨a, -, hr⟩ := bind_ok.mp hr
    cases hr

theorem popMany_append {α : Type} {check : Except Stop α} {n : Nat} {values stack : List Value}
    (h : values.length = n) :
    Frame.popMany check n (values ++ stack) = .ok (values, stack) := by
  refine popMany_ok.mpr ⟨?_, ?_⟩
  · rw [← h, List.length_append]
    exact Nat.le_add_right _ _
  · rw [List.take_left' h, List.drop_left' h]

/-- Only four instructions do more than go on to the next state. -/
theorem exec_outcome {i : Instruction} {fr : Frame} {w : World} {o : Outcome}
    (h : fr.exec i w = .ok o) : (∃ fr' w' ev, o = .next fr' w' ev) ∨ (∃ k, i = .call k) ∨
      i = .garbageCollect ∨ i = .ret := by
  cases i
  case call k => exact .inr (.inl ⟨k, rfl⟩)
  case garbageCollect => exact .inr (.inr (.inl rfl))
  case ret => exact .inr (.inr (.inr rfl))
  all_goals
    left
    simp only [Frame.exec, Frame.arithmetic, Frame.push, bind_ok, load_ok, insufficentStack] at h
    first
      | exact ⟨_, _, _, (Except.ok.inj h).symm⟩
      | grind [load_ok, store_ok, bind_ok, Frame.push]

theorem frame_step {s s' : Frame × World} {es : List Event}
    (h : Frame.move s = .ok (.step es s')) :
    ∃ i ev, s.1.function.instructions[s.1.ip]? = some i ∧
      s.1.exec i s.2 = .ok (.next s'.1 s'.2 ev) ∧ es = ev.toList := by
  unfold Frame.move at h
  split at h
  · cases h
  · next i hi =>
    obtain ⟨o, ho, hm⟩ := bind_ok.mp h
    cases o with
    | next fr w ev => cases hm; exact ⟨i, ev, hi, ho, rfl⟩
    | _ => cases hm

theorem frame_ask {s : Frame × World} {r : Request × World} {next : Value × World → Frame × World}
    (h : Frame.move s = .ok (.ask r next)) :
    ∃ i, s.1.function.instructions[s.1.ip]? = some i ∧
      ((∃ function arguments fr, s.1.exec i s.2 = .ok (.call function arguments fr) ∧
        r = (.call function arguments, s.2) ∧
        next = fun a => ({ fr with stack := a.1 :: fr.stack }, a.2)) ∨
      (∃ fr, s.1.exec i s.2 = .ok (.collect fr) ∧
        r = (.collect fr.locals fr.references fr.stack, s.2) ∧ next = fun a => (fr, a.2))) := by
  unfold Frame.move at h
  split at h
  · cases h
  · next i hi =>
    obtain ⟨o, ho, hm⟩ := bind_ok.mp h
    cases o with
    | call g as fr => cases hm; exact ⟨i, hi, .inl ⟨g, as, fr, ho, rfl, rfl⟩⟩
    | collect fr => cases hm; exact ⟨i, hi, .inr ⟨fr, ho, rfl, rfl⟩⟩
    | _ => cases hm

theorem frame_stop {s : Frame × World} {v : Value} {w : World}
    (h : Frame.move s = .ok (.stop (some v, w))) :
    ∃ i, s.1.function.instructions[s.1.ip]? = some i ∧ s.1.exec i s.2 = .ok (.ret v) ∧
      w = s.2 := by
  unfold Frame.move at h
  split at h
  · cases h
  · next i hi =>
    obtain ⟨o, ho, hm⟩ := bind_ok.mp h
    cases o with
    | ret v => cases hm; exact ⟨i, hi, ho, rfl⟩
    | _ => cases hm

end Beaverc.StepsLemmas
