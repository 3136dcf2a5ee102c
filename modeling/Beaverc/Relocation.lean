import Beaverc.Base.Observation
import Beaverc.Changes

/-!
# Code that moves

`LoadParamsOptimization` puts `ForceLoad`s in front of the code and
`RemoveNoopOptimization` takes the `Noop`s out of it, so that the instructions come
to stand at other places. A jump goes to its label wherever that stands, so the code
does the same as before.
-/

namespace Beaverc.Ir
open Process Results ChangesLemmas

/-! ## One instruction at two places -/

/-- The activation in other code, at another place. -/
def Activation.relocate (code : List Instruction) (ip : Nat) (f : Activation) : Activation :=
  { f with code := code, ip := ip }

/-- Where control goes after `i` in two codes. -/
inductive Lands (i : Instruction) (f g : Activation) : Nat → Nat → Prop
  | next : i.falls = true → Lands i f g (f.ip + 1) (g.ip + 1)
  | jump {l : Nat} : i.target? = some l → Lands i f g (position f.code l) (position g.code l)

/-- The move of an activation and the one it makes in other code. -/
inductive MovesAs (i : Instruction) (f : Activation) (code : List Instruction) (ip : Nat) :
    Move (Activation × World) Event (Request × World) (Value × World) (Option Value × World) →
    Move (Activation × World) Event (Request × World) (Value × World) (Option Value × World) →
    Prop
  | step {es : List Event} {f' : Activation} {w : World} {ip' : Nat} : f'.code = f.code →
      Lands i f (f.relocate code ip) f'.ip ip' →
      MovesAs i f code ip (.step es (f', w)) (.step es (f'.relocate code ip', w))
  | ask {r : Request × World} {next : Value × World → Activation × World} :
      i.falls = true → (∀ a, (next a).1.code = f.code ∧ (next a).1.ip = f.ip + 1) →
      MovesAs i f code ip (.ask r next)
        (.ask r fun a => ((next a).1.relocate code (ip + 1), (next a).2))
  | stop {r : Option Value × World} : MovesAs i f code ip (.stop r) (.stop r)

namespace RelocationLemmas

section Families

variable {i : Instruction} {f : Activation} {code : List Instruction} {ip : Nat} {w : World}

/-- A step to the next instruction. -/
theorem next_moves (f' : Activation) (hf : i.falls = true) (hcode : f'.code = f.code)
    (hip : f'.ip = f.ip + 1) (es : List Event) :
    Same (MovesAs i f code ip) (.ok (.step es (f', w)))
      (.ok (.step es (f'.relocate code (ip + 1), w))) :=
  .ok (.step hcode (hip ▸ .next hf))

/-- A step to a label. -/
theorem jump_moves {l : Nat} (ht : i.target? = some l) :
    Same (MovesAs i f code ip)
      (({ f with ip := position f.code l } : Activation).silent w)
      (({ f.relocate code ip with ip := position code l } : Activation).silent w) :=
  .ok (.step rfl (.jump ht))

/-- The result of a computation goes into the next state. -/
theorem bind_moves {α : Type} (hf : i.falls = true) (x : Except Stop α) (es : α → List Event)
    (after : α → Activation × World) (hcode : ∀ a, (after a).1.code = f.code)
    (hip : ∀ a, (after a).1.ip = f.ip + 1) :
    Same (MovesAs i f code ip) (x >>= fun a => .ok (.step (es a) (after a)))
      (x >>= fun a => .ok (.step (es a) ((after a).1.relocate code (ip + 1), (after a).2))) := by
  refine (same_self x).bind fun a a' ⟨ha, _⟩ => ?_
  subst ha
  exact next_moves (after a).1 hf (hcode a) (hip a) (es a)

theorem load_moves (hf : i.falls = true) (a : Action) (dest : Nat) :
    Same (MovesAs i f code ip) (f.load a dest w) ((f.relocate code ip).load a dest w) :=
  bind_moves hf (performHelper a w) (fun _ => [.act a])
    (fun r => (f.advance.setTemp dest r.1, r.2)) (fun _ => rfl) fun _ => rfl

theorem help_moves (hf : i.falls = true) (a : Action) :
    Same (MovesAs i f code ip) (f.help a w) ((f.relocate code ip).help a w) :=
  bind_moves hf (performHelper a w) (fun _ => [.act a])
    (fun r => ({ f.advance with retVal := r.1 }, r.2)) (fun _ => rfl) fun _ => rfl

theorem act_moves (hf : i.falls = true) (a : Action) :
    Same (MovesAs i f code ip) (f.act a w) ((f.relocate code ip).act a w) :=
  bind_moves hf (performHelper a w) (fun _ => [.act a])
    (fun r => (f.advance, r.2)) (fun _ => rfl) fun _ => rfl

end Families

end RelocationLemmas

open RelocationLemmas

/-- An instruction does the same at another place. -/
theorem exec_relocates (i : Instruction) (f : Activation) (code : List Instruction) (ip : Nat)
    (w : World) :
    Same (MovesAs i f code ip) (f.exec i w) ((f.relocate code ip).exec i w) := by
  cases i with
  | assign dest src =>
    cases src with
    | var n =>
      exact bind_moves rfl (rawIndex f.locals n) (fun _ => [])
        (fun v => (f.advance.setTemp dest v, w)) (fun _ => rfl) fun _ => rfl
    | const v => exact next_moves (f := f) (f.advance.setTemp dest v) rfl rfl rfl []
    | retVal => exact next_moves (f := f) (f.advance.setTemp dest f.retVal) rfl rfl rfl []
    | ref n =>
      exact bind_moves rfl (rawIndex f.references n) (fun _ => [])
        (fun r => (f.advance.setTemp dest (.pointer r), w)) (fun _ => rfl) fun _ => rfl
    | deref n =>
      refine (same_self (rawIndex f.references n)).bind fun r r' ⟨hr, _⟩ => ?_
      subst hr
      exact load_moves rfl _ dest
    | glob n =>
      refine (same_self (rawIndex f.function.names n)).bind fun r r' ⟨hr, _⟩ => ?_
      subst hr
      exact load_moves rfl _ dest
    | function n => exact load_moves rfl _ dest
  | forceLoad n => exact next_moves (f := f) f.advance rfl rfl rfl []
  | store dest src =>
    refine (same_self (f.read src)).bind fun v v' ⟨hv, _⟩ => ?_
    subst hv
    cases dest with
    | var n =>
      show Same _ (if n < f.locals.length then _ else _) (if n < f.locals.length then _ else _)
      split
      · exact next_moves (f := f) ({ f.advance with locals := f.locals.set n v }) rfl rfl rfl
          [.storeLocal n v]
      · exact .error id
    | deref n =>
      refine (same_self (rawIndex f.references n)).bind fun r r' ⟨hr, _⟩ => ?_
      subst hr
      exact act_moves rfl _
    | glob n =>
      refine (same_self (rawIndex f.function.names n)).bind fun r r' ⟨hr, _⟩ => ?_
      subst hr
      exact act_moves rfl _
  | binOp op dest src1 src2 =>
    refine (same_self (f.read src1)).bind fun v1 v1' ⟨h1, _⟩ => ?_
    refine (same_self (f.read src2)).bind fun v2 v2' ⟨h2, _⟩ => ?_
    subst h1 h2
    dsimp only
    generalize (if op.leftFirst = true then (v1, v2) else (v2, v1)) = operands
    cases op with
    | add | eq => exact load_moves rfl _ dest
    | _ =>
      exact bind_moves rfl (BinOp.machine _ operands.1 operands.2) (fun _ => [])
        (fun v => (f.advance.setTemp dest v, w)) (fun _ => rfl) fun _ => rfl
  | unOp op dest src =>
    refine (same_self (f.read src)).bind fun v v' ⟨hv, _⟩ => ?_
    subst hv
    exact bind_moves rfl (op.machine v) (fun _ => [])
      (fun v => (f.advance.setTemp dest v, w)) (fun _ => rfl) fun _ => rfl
  | call closure args =>
    refine (same_self (f.read closure)).bind fun v v' ⟨hv, _⟩ => ?_
    refine (same_self (args.mapM f.read)).bind fun vs vs' ⟨hvs, _⟩ => ?_
    subst hv hvs
    exact .ok (.ask rfl fun _ => ⟨rfl, rfl⟩)
  | allocClosure function refs =>
    refine (same_self (f.read function)).bind fun v v' ⟨hv, _⟩ => ?_
    refine (same_self (refs.mapM f.read)).bind fun vs vs' ⟨hvs, _⟩ => ?_
    subst hv hvs
    exact help_moves rfl _
  | ret val =>
    refine (same_self (f.read val)).bind fun v v' ⟨hv, _⟩ => ?_
    subst hv
    exact .ok .stop
  | outputLabel l => exact next_moves (f := f) f.advance rfl rfl rfl [.label l]
  | jump l => exact jump_moves rfl
  | shortJump l => exact jump_moves rfl
  | condJump cond l =>
    refine (same_self (f.read cond)).bind fun v v' ⟨hv, _⟩ => ?_
    subst hv
    split
    · exact jump_moves rfl
    · exact next_moves (f := f) f.advance rfl rfl rfl []
  | callHelper h args =>
    refine (same_self (args.mapM f.read)).bind fun vs vs' ⟨hvs, _⟩ => ?_
    subst hvs
    have action (hf : (Instruction.callHelper h args).falls = true) :
        Same (MovesAs (.callHelper h args) f code ip)
          (f.helperAction h vs >>= fun a =>
            if Activation.Helper.hasResult h then f.help a w else f.act a w)
          (f.helperAction h vs >>= fun a =>
            if Activation.Helper.hasResult h then (f.relocate code ip).help a w
            else (f.relocate code ip).act a w) := by
      refine (same_self (f.helperAction h vs)).bind fun a a' ⟨ha, _⟩ => ?_
      subst ha
      split
      · exact help_moves hf _
      · exact act_moves hf _
    cases h with
    | garbageCollect => exact .ok (.ask rfl fun _ => ⟨rfl, rfl⟩)
    | throwUninitialized n =>
      refine (same_self (rawIndex f.function.names n)).bind fun x x' ⟨hx, _⟩ => ?_
      subst hx
      exact .error id
    | _ => exact action rfl
  | callAssert a arg =>
    refine (same_self (f.read arg)).bind fun v v' ⟨hv, _⟩ => ?_
    subst hv
    exact bind_moves rfl (a.check v) (fun _ => []) (fun _ => (f.advance, w)) (fun _ => rfl)
      fun _ => rfl
  | noop => exact next_moves (f := f) f.advance rfl rfl rfl []
  | fork src dest1 dest2 =>
    refine (same_self (f.read src)).bind fun v v' ⟨hv, _⟩ => ?_
    subst hv
    exact next_moves (f := f) ((f.advance.setTemp dest1 v).setTemp dest2 v) rfl rfl rfl []

/-! ## Whole code -/

/-- The instructions of the first code stand in the second in the same order, that at `p`
at `place p`; `Noop`s may be missing. -/
structure Relocated (code code' : List Instruction) (place : Nat → Nat) : Prop where
  kept : ∀ {p i}, code[p]? = some i →
    code'[place p]? = some i ∧ place (p + 1) = place p + 1 ∨ i = .noop ∧ place (p + 1) = place p
  past : ∀ {p}, code[p]? = none → code'[place p]? = none
  label : ∀ l, position code' l = place (position code l)

/-- The same place in both codes. -/
structure Displaced (code code' : List Instruction) (place : Nat → Nat)
    (s q : Activation × World) : Prop where
  world : q.2 = s.2
  source : s.1.code = code
  target : q.1 = s.1.relocate code' (place s.1.ip)

namespace RelocationLemmas

section Whole

variable {code code' : List Instruction} {place : Nat → Nat} {s q : Activation × World}

theorem displaced_move {i : Instruction} (h : Displaced code code' place s q)
    (hi : s.1.code[s.1.ip]? = some i) (hi' : code'[place s.1.ip]? = some i) :
    Same (MovesAs i s.1 code' (place s.1.ip)) (Activation.move s) (Activation.move q) := by
  have hplace : q.1.code[q.1.ip]? = some i := by
    rw [h.target]
    exact hi'
  have hs : Activation.move s = s.1.exec i s.2 := by
    unfold Activation.move
    rw [hi]
  have hq : Activation.move q = q.1.exec i q.2 := by
    unfold Activation.move
    rw [hplace]
  rw [hs, hq, h.target, h.world]
  exact exec_relocates i s.1 code' (place s.1.ip) s.2

theorem displaced_next (hr : Relocated code code' place) (h : Displaced code code' place s q)
    {i : Instruction} (hplace : place (s.1.ip + 1) = place s.1.ip + 1) {f' : Activation} {w : World}
    {ip' : Nat} (hcode : f'.code = s.1.code)
    (hl : Lands i s.1 (s.1.relocate code' (place s.1.ip)) f'.ip ip') :
    Displaced code code' place (f', w) (f'.relocate code' ip', w) := by
  refine ⟨rfl, hcode.trans h.source, congrArg (f'.relocate code' ·) ?_⟩
  show ip' = place f'.ip
  generalize f'.ip = p at hl
  cases hl with
  | next => exact hplace.symm
  | @jump l _ =>
    rw [h.source]
    exact hr.label l

/-- A `Noop` that is missing in the second code. -/
theorem displaced_noop (h : Displaced code code' place s q)
    (hplace : place (s.1.ip + 1) = place s.1.ip) :
    Displaced code code' place (s.1.advance, s.2) q := by
  refine ⟨h.world, h.source, ?_⟩
  rw [h.target]
  show _ = s.1.advance.relocate code' (place (s.1.ip + 1))
  rw [hplace]
  rfl

theorem move_past {s : Activation × World} (hi : s.1.code[s.1.ip]? = none) :
    Activation.move s = .error .undefined := by
  unfold Activation.move
  rw [hi]

theorem relocated_simulation (hr : Relocated code code' place) :
    Simulation Activation.move Activation.move (fun _ => True) (Displaced code code' place) := by
  constructor
  · intro s q es s' h _ hm
    cases hi : s.1.code[s.1.ip]? with
    | none =>
      rw [move_past hi] at hm
      cases hm
    | some i =>
      rcases hr.kept (h.source ▸ hi) with ⟨hi', hplace⟩ | ⟨rfl, hplace⟩
      · have hsame := displaced_move h hi hi'
        rw [hm] at hsame
        generalize hq : Activation.move q = x at hsame
        cases hsame with
        | ok hmoves =>
          cases hmoves with
          | step hcode hl => exact ⟨_, .single hq, displaced_next hr h hplace hcode hl⟩
      · unfold Activation.move at hm
        rw [hi] at hm
        cases hm
        exact ⟨q, .refl q, displaced_noop h hplace⟩
  · intro s q r next h _ hm
    cases hi : s.1.code[s.1.ip]? with
    | none =>
      rw [move_past hi] at hm
      cases hm
    | some i =>
      rcases hr.kept (h.source ▸ hi) with ⟨hi', hplace⟩ | ⟨rfl, -⟩
      · have hsame := displaced_move h hi hi'
        rw [hm] at hsame
        generalize hq : Activation.move q = x at hsame
        cases hsame with
        | ok hmoves =>
          cases hmoves with
          | ask hf hnext =>
            refine ⟨q, _, .refl q, hq, fun a => ⟨_, .refl _, ?_⟩⟩
            obtain ⟨hcode, hip⟩ := hnext a
            refine displaced_next (i := i) hr h hplace hcode ?_
            rw [hip]
            exact .next hf
      · unfold Activation.move at hm
        rw [hi] at hm
        cases hm

theorem relocated_stop (hr : Relocated code code' place) (h : Displaced code code' place s q)
    {b : Option Value × World} (hm : Activation.move s = .ok (.stop b)) :
    Activation.move q = .ok (.stop b) := by
  cases hi : s.1.code[s.1.ip]? with
  | none =>
    rw [move_past hi] at hm
    cases hm
  | some i =>
    rcases hr.kept (h.source ▸ hi) with ⟨hi', -⟩ | ⟨rfl, -⟩
    · have hsame := displaced_move h hi hi'
      rw [hm] at hsame
      generalize hq : Activation.move q = x at hsame
      cases hsame with
      | ok hmoves =>
        cases hmoves
        rfl
    · unfold Activation.move at hm
      rw [hi] at hm
      cases hm

theorem relocated_fail (hr : Relocated code code' place) (h : Displaced code code' place s q)
    {e : Stop} (hm : Activation.move s = .error e) : Activation.move q = .error e := by
  cases hi : s.1.code[s.1.ip]? with
  | none =>
    rw [move_past hi] at hm
    cases hm
    refine move_past ?_
    rw [h.target]
    exact hr.past (h.source ▸ hi)
  | some i =>
    rcases hr.kept (h.source ▸ hi) with ⟨hi', -⟩ | ⟨rfl, -⟩
    · have hsame := displaced_move h hi hi'
      rw [hm] at hsame
      generalize hq : Activation.move q = x at hsame
      cases hsame
      rfl
    · unfold Activation.move at hm
      rw [hi] at hm
      cases hm

/-- What an observer sees does not depend on the places. -/
theorem relocated_kept {ρ' : Type} (hr : Relocated code code' place)
    (h : Displaced code code' place s q) (keep : Event → Bool) (view : Request × World → ρ')
    (env : ρ' → Value × World → Prop)
    (shown : Stop → Prop) : Kept Activation.move Activation.move keep view env shown s q :=
  .of_simulation (relocated_simulation hr) (fun h _ hm => ⟨_, .refl _, relocated_stop hr h hm⟩)
    (fun h _ hm => ⟨_, .refl _, relocated_fail hr h hm⟩) (fun _ _ _ _ => trivial) h

end Whole

/-! ### The two passes -/

theorem getElem?_noops {code : List Instruction} {p : Nat} {i : Instruction}
    (hi : code[p]? = some i) (hne : i ≠ .noop) :
    (code.filter (· ≠ .noop))[((code.take p).filter (· ≠ .noop)).length]? = some i := by
  obtain ⟨hlt, rfl⟩ := List.getElem?_eq_some_iff.mp hi
  have hsplit : code = code.take p ++ code[p] :: code.drop (p + 1) := by
    rw [← List.drop_eq_getElem_cons hlt, List.take_append_drop]
  have hfilter : code.filter (· ≠ .noop) = (code.take p).filter (· ≠ .noop) ++
      code[p] :: (code.drop (p + 1)).filter (· ≠ .noop) := by
    conv_lhs => rw [hsplit]
    rw [List.filter_append, List.filter_cons_of_pos (by simp [hne])]
  rw [hfilter, List.getElem?_append_right (Nat.le_refl _), Nat.sub_self]
  rfl

theorem position_noops (code : List Instruction) (l : Nat) :
    position (code.filter (· ≠ .noop)) l =
      ((code.take (position code l)).filter (· ≠ .noop)).length := by
  unfold position
  induction code with
  | nil => rfl
  | cons i code ih =>
    by_cases hl : i = .outputLabel l
    · subst hl
      rw [List.filter_cons_of_pos (by simp), List.idxOf_cons_self, List.idxOf_cons_self]
      rfl
    · have hbeq : (i == .outputLabel l) = false := beq_eq_false_iff_ne.mpr hl
      have hidx : (i :: code).idxOf (.outputLabel l) = code.idxOf (.outputLabel l) + 1 := by
        rw [List.idxOf_cons, hbeq, cond_false]
      rw [hidx, List.take_succ_cons]
      by_cases hi : i = .noop
      · subst hi
        rw [List.filter_cons_of_neg (by simp), List.filter_cons_of_neg (by simp), ih]
      · rw [List.filter_cons_of_pos (by simp [hi]),
          List.filter_cons_of_pos (by simp [hi]), List.idxOf_cons, hbeq, cond_false, ih]
        rfl

theorem relocated_noops (code : List Instruction) :
    Relocated code (code.filter (· ≠ .noop))
      fun p => ((code.take p).filter (· ≠ .noop)).length := by
  refine ⟨fun {p i} hi => ?_, fun {p} hp => ?_, position_noops code⟩
  · rw [List.take_add_one, hi, List.filter_append, List.length_append]
    by_cases hne : i = .noop
    · subst hne
      exact .inr ⟨rfl, rfl⟩
    · refine .inl ⟨getElem?_noops hi hne, ?_⟩
      rw [show (some i).toList = [i] from rfl, List.filter_cons_of_pos (by simp [hne])]
      rfl
  · rw [List.take_of_length_le (List.getElem?_eq_none_iff.mp hp)]
    exact List.getElem?_eq_none_iff.mpr (Nat.le_refl _)

theorem relocated_front {front : List Instruction} (hf : ∀ l, .outputLabel l ∉ front)
    (code : List Instruction) :
    Relocated code (front ++ code) fun p => front.length + p := by
  refine ⟨fun {p i} hi => .inl ⟨?_, rfl⟩, fun {p} hp => ?_, fun l => ?_⟩
  · rwa [List.getElem?_append_right (Nat.le_add_right ..), Nat.add_sub_cancel_left]
  · rwa [List.getElem?_append_right (Nat.le_add_right ..), Nat.add_sub_cancel_left]
  · exact List.idxOf_append_of_notMem (hf l)

/-- `ForceLoad`s only move on. -/
theorem silent_forceLoads (params : List Nat) (front code : List Instruction) (f : Activation)
    (w : World) :
    Silent Activation.move
      (f.relocate (front ++ (params.map .forceLoad ++ code)) front.length, w) []
      (f.relocate (front ++ (params.map .forceLoad ++ code)) (front.length + params.length),
        w) := by
  induction params generalizing front with
  | nil => exact .refl _
  | cons n params ih =>
    have hnext := ih (front ++ [.forceLoad n])
    rw [List.length_append, List.length_singleton, List.append_assoc] at hnext
    rw [List.length_cons, Nat.add_comm params.length, ← Nat.add_assoc]
    refine .quiet ?_ hnext
    have hi : (front ++ ((n :: params).map .forceLoad ++ code))[front.length]? =
        some (.forceLoad n) := by
      rw [List.getElem?_append_right (Nat.le_refl _), Nat.sub_self]
      rfl
    unfold Activation.move Activation.relocate
    dsimp only
    rw [hi]
    rfl

end RelocationLemmas

end Beaverc.Ir
