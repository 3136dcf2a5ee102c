import Beaverc.TypeHints

/-!
# Runs through copied words that fit

What an `Assign` copies from a variable, a reference or a global has the hints of
the stores that the scan has passed, whichever path the run has taken, and none of
what comes from elsewhere. Where each copied word is of the type hinted, every temp
is.
-/

namespace Beaverc.Ir
open Process Results SingleUseLemmas DefinedTempsLemmas ConstantHintsLemmas OptimizerErrorsLemmas
  LoopsLemmas ChangesLemmas DeadVariablesLemmas TranslationLemmas
  TypeHintsLemmas

/-- The word that an `Assign` copies from a variable, a reference or a global. -/
def Activation.copied (f : Activation) (w : World) : Source → Except Stop Value
  | .var n => rawIndex f.locals n
  | .deref n => do
    let (v, _) ← performHelper (.loadReference (← rawIndex f.references n)) w
    return v
  | .glob n => do
    let (v, _) ← performHelper (.loadGlobal (← rawIndex f.function.names n)) w
    return v
  | .const _ | .retVal | .ref _ | .function _ => .error .undefined

/-- If the instruction in hand copies a word to a temp, the word is of the type that
the hints of the temp name, the hints that the variable, reference or global had
from the stores of the code when the scan came there. -/
def CopyFits (o : Operands) (s : Activation × World) : Prop :=
  ∀ dest src v, s.1.code[s.1.ip]? = some (.assign dest src) → s.1.copied s.2 src = .ok v →
    (o.temp dest).typeHint.Admits v

namespace TypedTempsLemmas

/-- What an operation makes of its operands. -/
def OpWrites (op : BinOp) (l r v : Value) : Prop :=
  match op with
  | .add => (∃ i, l = .integer i) → (∃ i, r = .integer i) → ∃ i, v = .integer i
  | .intAdd | .sub | .mul | .div => ∃ i, v = .integer i
  | .gt | .geq | .eq | .fastEq | .and | .or => ∃ b, v = .boolean b

/-- What an instruction writes to its temps. -/
def InstructionWrites (f : Activation) (w : World) : Instruction → Value → Prop
  | .assign _ src, v =>
    match src with
    | .var _ | .deref _ | .glob _ => f.copied w src = .ok v
    | .const c => v = c
    | .retVal | .ref _ | .function _ => True
  | .binOp op _ src1 src2, v =>
    ∃ v1 v2, f.temps src1 = some v1 ∧ f.temps src2 = some v2 ∧ OpWrites op v1 v2 v
  | .unOp op _ _, v =>
    match op with
    | .neg => ∃ i, v = .integer i
    | .not => ∃ b, v = .boolean b
  | _, _ => True

section Writes

variable {f : Activation} {w : World}

theorem read_ok {t : Nat} {v : Value} (h : f.read t = .ok v) : f.temps t = some v := by
  unfold Activation.read at h
  split at h
  · next x hx =>
    cases h
    exact hx
  · cases h

theorem setTemp_self {t : Nat} {x v : Value} (h : (f.setTemp t x).temps t = some v) : x = v := by
  have hself : (f.setTemp t x).temps t = some x := Function.update_self ..
  exact Option.some.inj (hself.symm.trans h)

/-- An action whose result goes to a temp. -/
theorem load_writes {a : Action} {dest : Nat} {es : List Event} {s' : Activation × World}
    (h : f.load a dest w = .ok (.step es s')) {v : Value} (hv : s'.1.temps dest = some v) :
    ∃ w', performHelper a w = .ok (v, w') := by
  unfold Activation.load at h
  obtain ⟨⟨x, w'⟩, hx, h⟩ := bind_ok.mp h
  cases h
  cases setTemp_self hv
  exact ⟨w', hx⟩

theorem machine_writes {op : BinOp} {l r v : Value} (h : op.machine l r = .ok v) :
    op ≠ .add ∧ op ≠ .eq ∧ ∀ v1 v2, OpWrites op v1 v2 v := by
  cases op with
  | add => cases l <;> cases r <;> cases h
  | eq => cases l <;> cases r <;> cases h
  | intAdd | sub | mul =>
    cases l <;> cases r <;> cases h
    exact ⟨by decide, by decide, fun _ _ => ⟨_, rfl⟩⟩
  | div =>
    cases l <;> cases r <;> try cases h
    rw [BinOp.machine] at h
    split at h
    · cases h
    · cases h
      exact ⟨by decide, by decide, fun _ _ => ⟨_, rfl⟩⟩
  | gt | geq | and | or =>
    cases l <;> cases r <;> cases h
    all_goals exact ⟨by decide, by decide, fun _ _ => ⟨_, rfl⟩⟩
  | fastEq =>
    unfold BinOp.machine at h
    simp only at h
    split at h
    · cases h
    · cases h
      exact ⟨by decide, by decide, fun _ _ => ⟨_, rfl⟩⟩

theorem unMachine_writes {op : UnOp} {x v : Value} (h : op.machine x = .ok v) {dest src : Nat} :
    InstructionWrites f w (.unOp op dest src) v := by
  cases op with
  | neg => cases x <;> cases h; exact ⟨_, rfl⟩
  | not => cases x <;> cases h; exact ⟨_, rfl⟩

/-- A sum of integers, and a comparison. -/
theorem perform_add {l r v : Value} {w' : World}
    (h : performHelper (.add l r) w = .ok (v, w')) : OpWrites .add l r v := by
  rintro ⟨i, rfl⟩ ⟨j, rfl⟩
  cases h
  exact ⟨_, rfl⟩

theorem perform_eq {l r v : Value} {w' : World}
    (h : performHelper (.eq l r) w = .ok (v, w')) : ∃ b, v = .boolean b := by
  change (w.equals l r >>= fun v => Except.ok (v, w)) = .ok (v, w') at h
  obtain ⟨x, hx, h⟩ := bind_ok.mp h
  cases h
  unfold World.equals at hx
  split at hx
  · obtain ⟨_, -, hx⟩ := bind_ok.mp hx
    obtain ⟨_, -, hx⟩ := bind_ok.mp hx
    cases hx
    exact ⟨_, rfl⟩
  · cases hx
    exact ⟨_, rfl⟩

end Writes

theorem temps_unwritten {temps : Nat → Option Value} {writes : List (Nat × Value)} {t : Nat}
    (h : t ∉ writes.map Prod.fst) : writeTemps temps writes t = temps t := by
  unfold writeTemps
  induction writes generalizing temps with
  | nil => rfl
  | cons p writes ih =>
    rw [List.map_cons, List.mem_cons, not_or] at h
    rw [List.foldl_cons, ih h.2, Function.update_of_ne h.1]

/-- The frame rule of a step. -/
theorem exec_frame {f : Activation} {w : World} {es : List Event} {s' : Activation × World}
    (h : f.exec i w = .ok (.step es s')) {t : Nat} (ht : t ∉ i.dests) :
    s'.1.temps t = f.temps t := by
  have hsame := exec_agrees (Alike.refl i f) w
  rw [h] at hsame
  cases hsame with
  | ok hm =>
    cases hm with
    | step hc => exact temps_unwritten (hc.temps ▸ ht)

theorem assign_writes {f : Activation} {w : World} {es : List Event} {s' : Activation × World}
    {dest : Nat} {src : Source} (h : f.exec (.assign dest src) w = .ok (.step es s')) {v : Value}
    (hv : s'.1.temps dest = some v) : InstructionWrites f w (.assign dest src) v := by
  cases src with
  | var n =>
    obtain ⟨x, hx, h⟩ := bind_ok.mp h
    cases h
    cases setTemp_self hv
    exact hx
  | deref n =>
    obtain ⟨r, hr, h⟩ := bind_ok.mp h
    obtain ⟨w', hw⟩ := load_writes h hv
    show f.copied w (.deref n) = .ok v
    rw [Activation.copied, hr, ok_bind, hw]
    rfl
  | glob n =>
    obtain ⟨name, hr, h⟩ := bind_ok.mp h
    obtain ⟨w', hw⟩ := load_writes h hv
    show f.copied w (.glob n) = .ok v
    rw [Activation.copied, hr, ok_bind, hw]
    rfl
  | const c =>
    cases h
    exact (setTemp_self hv).symm
  | retVal | ref _ | function _ => trivial

theorem binOp_writes {f : Activation} {w : World} {es : List Event} {s' : Activation × World}
    {op : BinOp} {dest src1 src2 : Nat}
    (h : f.exec (.binOp op dest src1 src2) w = .ok (.step es s')) {v : Value}
    (hv : s'.1.temps dest = some v) : InstructionWrites f w (.binOp op dest src1 src2) v := by
  obtain ⟨v1, h1, h⟩ := bind_ok.mp h
  obtain ⟨v2, h2, h⟩ := bind_ok.mp h
  refine ⟨v1, v2, read_ok h1, read_ok h2, ?_⟩
  cases op with
  | add =>
    obtain ⟨w', hw⟩ := load_writes h hv
    exact perform_add hw
  | eq =>
    obtain ⟨w', hw⟩ := load_writes h hv
    exact perform_eq hw
  | _ =>
    obtain ⟨x, hx, h⟩ := bind_ok.mp h
    cases h
    cases setTemp_self hv
    exact (machine_writes hx).2.2 v1 v2

/-- Each temp keeps its value, or the instruction writes it. -/
theorem exec_writes {f : Activation} {w : World} {es : List Event} {s' : Activation × World}
    (h : f.exec i w = .ok (.step es s')) {t : Nat} {v : Value} (hv : s'.1.temps t = some v) :
    f.temps t = some v ∨ t ∈ i.dests ∧ InstructionWrites f w i v := by
  by_cases ht : t ∈ i.dests
  · refine .inr ⟨ht, ?_⟩
    cases i with
    | assign dest src =>
      cases List.mem_singleton.mp ht
      exact assign_writes h hv
    | binOp op dest src1 src2 =>
      cases List.mem_singleton.mp ht
      exact binOp_writes h hv
    | unOp op dest src =>
      cases List.mem_singleton.mp ht
      obtain ⟨x, -, h⟩ := bind_ok.mp h
      obtain ⟨y, hy, h⟩ := bind_ok.mp h
      cases h
      cases setTemp_self hv
      exact unMachine_writes hy
    | _ => trivial
  · exact .inl ((exec_frame h ht).symm.trans hv)

/-- The temps hold values that the hints admit. -/
def Fits (o : Operands) (f : Activation) : Prop :=
  ∀ t v, f.temps t = some v → (o.temp t).typeHint.Admits v

/-- What is written is what the hints of the operands let expect. -/
theorem writes_yields {f : Activation} {w : World} (hfits : Fits o f)
    (hcopy : CopyFits o₀ (f, w)) (hi : f.code[f.ip]? = some i) {v : Value}
    (h : InstructionWrites f w i v) : i.Yields o₀ o v := by
  cases i with
  | assign dest src =>
    cases src with
    | var _ | deref _ | glob _ => exact hcopy dest _ v hi h
    | _ => exact h
  | binOp op dest src1 src2 =>
    obtain ⟨v1, v2, h1, h2, hv⟩ := h
    cases op with
    | add => exact fun i1 i2 => hv ((hfits src1 v1 h1).int i1) ((hfits src2 v2 h2).int i2)
    | _ => exact hv
  | _ => exact h

/-- The step lemma. -/
theorem fits_exec {f : Activation} {w : World} {es : List Event} {s' : Activation × World}
    (hfits : Fits o f) (hcopy : CopyFits o₀ (f, w)) (hi : f.code[f.ip]? = some i)
    (htyped : i.Typed o₀ o) (h : f.exec i w = .ok (.step es s')) : Fits o s'.1 := by
  intro t v hv
  rcases exec_writes h hv with hold | ⟨ht, hw⟩
  · exact hfits t v hold
  · exact htyped t ht v (writes_yields hfits hcopy hi hw)

/-- An answer is put in `RetVal`, not in a temp. -/
theorem exec_ask {f : Activation} {w : World} {r : Request × World}
    {next : Value × World → Activation × World} (h : f.exec i w = .ok (.ask r next)) :
    ∀ a, (next a).1.temps = f.temps ∧ (next a).1.code = f.code ∧
      (next a).1.locals = f.locals := by
  have hsame := exec_agrees (Alike.refl i f) w
  rw [h] at hsame
  cases hsame with
  | ok hm =>
    cases hm with
    | call _ => exact fun _ => ⟨rfl, rfl, rfl⟩
    | collect _ => exact fun _ => ⟨rfl, rfl, rfl⟩

theorem exec_code {f : Activation} {w : World} {es : List Event} {s' : Activation × World}
    (h : f.exec i w = .ok (.step es s')) : s'.1.code = f.code := by
  have hsame := exec_agrees (Alike.refl i f) w
  rw [h] at hsame
  cases hsame with
  | ok hm =>
    cases hm with
    | step _ => rfl

theorem move_inv {s : Activation × World}
    {m : Move (Activation × World) Event (Request × World) (Value × World) (Option Value × World)}
    (h : Activation.move s = .ok m) : ∃ i, s.1.code[s.1.ip]? = some i ∧ s.1.exec i s.2 = .ok m := by
  unfold Activation.move at h
  split at h
  · cases h
  · next i hi => exact ⟨i, hi, h⟩

/-- The run lemma: from a state whose temps fit, through states in which the copied
words fit. -/
theorem fits_run {code : List Instruction} (htyped : ∀ i ∈ code, i.Typed o₀ o)
    {env : Request × World → Value × World → Prop} {n : Nat} {s s' : Activation × World}
    {t : List (Label Event (Request × World) (Value × World))}
    (hr : Run Activation.move env (CopyFits o₀) n s t s') (hcode : s.1.code = code)
    (hs : Fits o s.1) : Fits o s'.1 := by
  let inv (s : Activation × World) : Prop := s.1.code = code ∧ Fits o s.1
  suffices hinv : inv s' from hinv.2
  refine hr.invariant (fun s es s' h hk hm => ?_) (fun s r next a h _ hm _ => ?_) ⟨hcode, hs⟩
  · obtain ⟨i, hi, hexec⟩ := move_inv hm
    have hmem : i ∈ code := List.mem_of_getElem? (h.1 ▸ hi)
    exact ⟨(exec_code hexec).trans h.1, fits_exec h.2 hk hi (htyped i hmem) hexec⟩
  · obtain ⟨i, hi, hexec⟩ := move_inv hm
    obtain ⟨htemps, hcode, -⟩ := exec_ask hexec a
    refine ⟨hcode.trans h.1, fun t v hv => ?_⟩
    rw [htemps] at hv
    exact h.2 t v hv

end TypedTempsLemmas

end Beaverc.Ir
