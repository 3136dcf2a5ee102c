import Beaverc.Operands
import Beaverc.Translation
import Beaverc.Base.Raising

/-!
# Failures of compiled code

Where `run_function` raises, compiled code raises the same exception after the
same events, and the other way round, as long as a run stays away from the
places where the checks of the two differ. These are globals that have not been
stored, `And` and `Or` on a right operand that does not matter, a division by
zero of something that is no integer, and an index without a text into something
that is no record.
-/

namespace Beaverc.Ir
open Process Results StepsLemmas TranslationLemmas

/-- At this step the checks of compiled code are those of `run_function`. -/
def SameChecks (s : Frame × World) : Prop :=
  match s.1.function.instructions[s.1.ip]?, s.1.stack with
  | some (.loadGlobal k), _ =>
    ∀ name, s.1.function.names[k]? = some name → ∃ v, s.2.globals.lookup name = some v
  | some .and, right :: .boolean false :: _ => ∃ b, right = .boolean b
  | some .or, right :: .boolean true :: _ => ∃ b, right = .boolean b
  | some .mul, .integer right :: .integer left :: _ => ProductFits left right
  | some .div, .integer 0 :: left :: _ => ∃ l, left = .integer l
  | some .indexLoad, index :: record :: _ | some .indexStore, _ :: index :: record :: _ =>
    (∃ text, index.toText s.2.heap = .ok text) ∨
      ∃ a, record.getPointer Payload.isRecord s.2.heap = .ok a
  | _, _ => True

/-- Failures that an exception reports. -/
def Shown : Stop → Prop
  | .raised _ _ => True
  | _ => False

namespace FailuresLemmas

theorem sameChecks_logical {s : Frame × World} (h : SameChecks s) : LogicalOperands s := by
  unfold LogicalOperands
  unfold SameChecks at h
  split
  · next hi hst =>
    rw [hi, hst] at h
    exact h
  · next hi hst =>
    rw [hi, hst] at h
    exact h
  · trivial

theorem sameChecks_fits {fit : Int → Int → Prop} (hfit : ∀ l r, ProductFits l r → fit l r)
    {s : Frame × World} (h : SameChecks s) : FittingProduct fit s := by
  unfold FittingProduct
  unfold SameChecks at h
  split
  · next hi hst =>
    rw [hi, hst] at h
    exact hfit _ _ h
  · trivial

/-! ## The same failure -/

theorem load_error {a : Action} {stack : List Value} {w : World} {fr : Frame} {err : Stop}
    (h : fr.load a stack w = .error err) : perform a w = .error err := by
  unfold Frame.load at h
  cases hp : perform a w with
  | ok r => rw [hp] at h; cases h
  | error err' => rw [hp] at h; cases h; rfl

theorem store_error {a : Action} {stack : List Value} {w : World} {fr : Frame} {err : Stop}
    (h : fr.store a stack w = .error err) : perform a w = .error err := by
  unfold Frame.store at h
  cases hp : perform a w with
  | ok r => rw [hp] at h; cases h
  | error err' => rw [hp] at h; cases h; rfl

theorem bind_error {α β : Type} {x : Except Stop α} {k : α → Except Stop β} {err : Stop}
    (h : x >>= k = .error err) : x = .error err ∨ ∃ a, x = .ok a ∧ k a = .error err := by
  cases x with
  | ok a => exact .inr ⟨a, rfl, h⟩
  | error err' =>
    cases h
    exact .inl rfl

/-- An index with a record or a text fails alike. -/
theorem index_error {α : Type} {record index : Value} {w : World} {use : String → Except Stop α}
    {err : Stop} (hsame : (∃ text, index.toText w.heap = .ok text) ∨
      ∃ a, record.getPointer Payload.isRecord w.heap = .ok a)
    (huse : ∀ name err', record.getPointer Payload.isRecord w.heap = .error err' →
      use name = .error err')
    (h : (do use (← index.toText w.heap)) = .error err) :
    (do let _ ← record.getPointer Payload.isRecord w.heap
        use (← index.toText w.heap)) = .error err := by
  cases hr : record.getPointer Payload.isRecord w.heap with
  | ok a => exact h
  | error err' =>
    rcases hsame with ⟨text, ht⟩ | ⟨a, ha⟩
    · rw [ht, ok_bind, huse text err' hr] at h
      exact h
    · rw [hr] at ha
      cases ha

/-! ## The first instruction fails -/

section

variable {shared : Operands} {f : Function} {final : Compiler} {s : Frame × World}
  {q : Activation × World} {i : Beaverc.Instruction} {c : Compiler} {e : Emission} {err : Stop}
  {P : Activity Activation} [Reading P]

/-- Compiled code is about to fail. -/
def FailsWith (P : Activity Activation) (q : Activation × World) (err : Stop) : Prop :=
  ∃ q', Silent P q [] q' ∧ P q' = .error err

theorem first_fails (hh : Here shared f s q i c e) {instr : Instruction}
    {rest : List Instruction} {stack : List Nat} {n : Nat}
    (hemit : e = ⟨instr :: rest, stack, n⟩) (hexact : q.1.Exact (Reading.fit P) instr)
    (h : q.1.exec instr q.2 = .error err) : FailsWith P q err := by
  refine ⟨q, .refl q, ?_⟩
  rw [move_eq P (hh.code 0 instr (by rw [hemit]; rfl)) hexact, h]

theorem activation_load {a : Action} {dest : Nat} {p : Activation} {w : World}
    (h : performHelper a w = .error err) : p.load a dest w = .error err := by
  unfold Activation.load
  rw [h]
  rfl

theorem activation_help {a : Action} {p : Activation} {w : World}
    (h : performHelper a w = .error err) : p.help a w = .error err := by
  unfold Activation.help
  rw [h]
  rfl

theorem activation_act {a : Action} {p : Activation} {w : World}
    (h : performHelper a w = .error err) : p.act a w = .error err := by
  unfold Activation.act
  rw [h]
  rfl

/-! ## A check fails -/

/-- The checks in front of an operation, on the values that the temps hold. -/
def checked (q : Activation) (l : List (Assert × Nat)) : Except Stop Unit :=
  l.forM fun p => p.1.check (q.value p.2)

theorem checks_fail {q : Activation × World} {l : List (Assert × Nat)} (rest : List Instruction)
    (hcode : ∀ k j, (checks l ++ rest)[k]? = some j → q.1.code[q.1.ip + k]? = some j)
    (hread : ∀ p ∈ l, q.1.read p.2 = .ok (q.1.value p.2)) (h : checked q.1 l = .error err) :
    FailsWith P q err := by
  induction l generalizing q with
  | nil => cases h
  | cons p l ih =>
    have hmove := move_eq P (hcode 0 (.callAssert p.1 p.2) rfl) trivial
    simp only [Activation.exec, hread p List.mem_cons_self, ok_bind] at hmove
    rcases bind_error h with hp | ⟨⟨⟩, hp, hl⟩ <;> beta_reduce at hp
    · rw [hp] at hmove
      exact ⟨q, .refl q, hmove⟩
    · rw [hp, ok_bind] at hmove
      obtain ⟨q', hq', herr⟩ := ih (q := (q.1.advance, q.2)) (fun k j hk => by
          have hk' := hcode (k + 1) j hk
          rwa [show q.1.ip + (k + 1) = q.1.ip + 1 + k by omega] at hk')
        (fun p' hp' => hread p' (List.mem_cons_of_mem _ hp')) hl
      exact ⟨q', .quiet hmove hq', herr⟩

/-! ## Every instruction -/

/-- What is to be shown of an instruction that fails. -/
def Failed (P : Activity Activation) (s : Frame × World) (q : Activation × World)
    (i : Beaverc.Instruction) : Prop :=
  ∀ err, s.1.exec i s.2 = .error err → FailsWith P q err

/-- A name of the function can be read. -/
theorem name_read {k : Nat} (hk : k < f.names.length) :
    ∃ name, f.names[k]? = some name ∧ safeIndex f.names k = .ok name ∧
      rawIndex f.names k = .ok name :=
  ⟨_, List.getElem?_eq_getElem hk, safeIndex_ok.mpr (List.getElem?_eq_getElem hk),
    rawIndex_ok.mpr (List.getElem?_eq_getElem hk)⟩

omit [Reading P] in
theorem failed_loadConst {k : Nat} (hh : Here shared f s q (.loadConst k) c e)
    (h : Follows shared f final s q) : Failed P s q (.loadConst k) := by
  intro err hx
  obtain ⟨x, hc, -⟩ := Option.bind_eq_some_iff.mp hh.emission
  simp only [Frame.exec, h.function, safeIndex_ok.mpr hc, ok_bind] at hx
  cases hx

theorem failed_loadLocal {k : Nat} (hh : Here shared f s q (.loadLocal k) c e)
    (h : Follows shared f final s q) : Failed P s q (.loadLocal k) := by
  intro err hx
  refine first_fails hh (Option.some.inj hh.emission).symm trivial ?_
  rcases bind_error hx with hx | ⟨v, -, hx⟩
  · simp only [Activation.exec, h.locals, hx]
    rfl
  · cases hx

theorem failed_pushReference {k : Nat} (hh : Here shared f s q (.pushReference k) c e)
    (h : Follows shared f final s q) : Failed P s q (.pushReference k) := by
  intro err hx
  refine first_fails hh (Option.some.inj hh.emission).symm trivial ?_
  rcases bind_error hx with hx | ⟨v, -, hx⟩
  · simp only [Activation.exec, h.references, hx]
    rfl
  · cases hx

theorem failed_loadFunc {k : Int} (hh : Here shared f s q (.loadFunc k) c e)
    (h : Follows shared f final s q) : Failed P s q (.loadFunc k) := by
  intro err hx
  refine first_fails hh (Option.some.inj hh.emission).symm trivial ?_
  have hp := load_error hx
  simp only [Activation.exec, h.closure, h.world]
  exact activation_load hp

omit [Reading P] in
theorem failed_loadGlobal {k : Nat} (hh : Here shared f s q (.loadGlobal k) c e)
    (h : Follows shared f final s q) (hk : k < f.names.length) (hok : SameChecks s) :
    Failed P s q (.loadGlobal k) := by
  intro err hx
  obtain ⟨name, hname, hsafe, -⟩ := name_read hk
  have hi := hh.instruction
  rw [← h.function] at hi
  unfold SameChecks at hok
  rw [hi] at hok
  obtain ⟨v, hv⟩ := hok name (h.function ▸ hname)
  simp only [Frame.exec, h.function, hsafe, ok_bind] at hx
  have hp := load_error hx
  simp only [perform, hv] at hp
  cases hp

theorem failed_loadReference {k : Nat} (hh : Here shared f s q (.loadReference k) c e)
    (h : Follows shared f final s q) : Failed P s q (.loadReference k) := by
  intro err hx
  refine first_fails hh (Option.some.inj hh.emission).symm trivial ?_
  rcases bind_error hx with hx | ⟨r, hr, hx⟩
  · simp only [Activation.exec, h.references, hx]
    rfl
  · have hp := load_error hx
    simp only [Activation.exec, h.references, hr, ok_bind, h.world]
    exact activation_load hp

theorem failed_allocRecord (hh : Here shared f s q .allocRecord c e)
    (h : Follows shared f final s q) : Failed P s q .allocRecord := by
  intro err hx
  refine first_fails hh (Option.some.inj hh.emission).symm trivial ?_
  have hp : performHelper .allocRecord s.2 = .error err := load_error hx
  rw [h.world]
  exact activation_help hp

theorem failed_fieldLoad {k : Nat} (hh : Here shared f s q (.fieldLoad k) c e)
    (h : Follows shared f final s q) (hk : k < f.names.length) : Failed P s q (.fieldLoad k) := by
  intro err hx
  obtain ⟨name, -, hsafe, hraw⟩ := name_read hk
  rcases hst : c.stack with _ | ⟨record, rest⟩
  · cases hh.emission_eq hst
  · refine first_fails hh (Option.some.inj (hh.emission_eq hst)).symm trivial ?_
    simp only [Frame.exec, h.function, hsafe, ok_bind, hh.stack_eq hst, List.map_cons] at hx
    have hp := load_error hx
    simp only [Activation.exec, hh.mapM_read hst (l := [record]) (by simp), List.map_cons,
      List.map_nil, Activation.helperAction, h.names, hraw, ok_bind, pure_ok, h.world]
    exact activation_help hp

theorem failed_indexLoad (hh : Here shared f s q .indexLoad c e)
    (h : Follows shared f final s q) (hok : SameChecks s) : Failed P s q .indexLoad := by
  intro err hx
  have hi := hh.instruction
  rw [← h.function] at hi
  unfold SameChecks at hok
  rcases hst : c.stack with _ | ⟨index, _ | ⟨record, rest⟩⟩
  · cases hh.emission_eq hst
  · cases hh.emission_eq hst
  · refine first_fails hh (Option.some.inj (hh.emission_eq hst)).symm trivial ?_
    rw [hi, hh.stack_eq hst] at hok
    simp only [Frame.exec, hh.stack_eq hst, List.map_cons] at hx
    have hp : performHelper (.indexLoad (q.1.value record) (q.1.value index)) s.2 = .error err := by
      refine index_error hok (fun name err' hr => ?_) (load_error hx)
      unfold World.getField
      rw [hr]
      rfl
    simp only [Activation.exec, hh.mapM_read hst (l := [record, index]) (by simp), ok_bind, h.world]
    exact activation_help hp

theorem failed_indexStore (hh : Here shared f s q .indexStore c e)
    (h : Follows shared f final s q) (hok : SameChecks s) : Failed P s q .indexStore := by
  intro err hx
  have hi := hh.instruction
  rw [← h.function] at hi
  unfold SameChecks at hok
  rcases hst : c.stack with _ | ⟨value, _ | ⟨index, _ | ⟨record, rest⟩⟩⟩
  · cases hh.emission_eq hst
  · cases hh.emission_eq hst
  · cases hh.emission_eq hst
  · refine first_fails hh (Option.some.inj (hh.emission_eq hst)).symm trivial ?_
    rw [hi, hh.stack_eq hst] at hok
    simp only [Frame.exec, hh.stack_eq hst, List.map_cons] at hx
    have hp : performHelper (.indexStore (q.1.value record) (q.1.value index) (q.1.value value))
        s.2 = .error err := by
      refine index_error hok (fun name err' hr => ?_) (store_error hx)
      unfold World.setField
      rw [hr]
      rfl
    simp only [Activation.exec, hh.mapM_read hst (l := [record, index, value]) (by simp), ok_bind,
      h.world]
    exact activation_act hp

theorem failed_allocClosure {k : Nat} (hh : Here shared f s q (.allocClosure k) c e)
    (h : Follows shared f final s q) : Failed P s q (.allocClosure k) := by
  intro err hx
  rcases hst : c.stack with _ | ⟨g, rest⟩
  · cases hh.emission_eq hst
  · have hemit := hh.emission_eq hst
    simp only [translate, Option.ite_none_right_eq_some] at hemit
    obtain ⟨hk, hemit⟩ := hemit
    refine first_fails hh (Option.some.inj hemit).symm trivial ?_
    simp only [Frame.exec, hh.stack_eq hst, List.map_cons, Frame.popMany, List.length_map, hk,
      if_true, List.splitAt_eq, ok_bind] at hx
    have hp := load_error hx
    rw [← List.map_take] at hp
    simp only [Activation.exec, hh.read hst (List.mem_cons_self ..) q.1.ip,
      hh.mapM_read hst (l := rest.take k) fun t ht =>
        List.mem_cons_of_mem _ (List.mem_of_mem_take ht), ok_bind, h.world]
    exact activation_help hp

theorem failed_add (hh : Here shared f s q .add c e) (h : Follows shared f final s q) :
    Failed P s q .add := by
  intro err hx
  rcases hst : c.stack with _ | ⟨right, _ | ⟨left, rest⟩⟩
  · cases hh.emission_eq hst
  · cases hh.emission_eq hst
  · refine first_fails hh (Option.some.inj (hh.emission_eq hst)).symm trivial ?_
    simp only [Frame.exec, hh.stack_eq hst, List.map_cons] at hx
    have hp := load_error hx
    simp only [Activation.exec, hh.read hst (t := left) (by simp) q.1.ip,
      hh.read hst (t := right) (by simp) q.1.ip, ok_bind, BinOp.leftFirst, if_true, h.world]
    exact activation_load hp

theorem failed_eq (hh : Here shared f s q .eq c e) (h : Follows shared f final s q) :
    Failed P s q .eq := by
  intro err hx
  rcases hst : c.stack with _ | ⟨right, _ | ⟨left, rest⟩⟩
  · cases hh.emission_eq hst
  · cases hh.emission_eq hst
  · refine first_fails hh (Option.some.inj (hh.emission_eq hst)).symm trivial ?_
    simp only [Frame.exec, hh.stack_eq hst, List.map_cons] at hx
    have hp := load_error hx
    simp only [Activation.exec, hh.read hst (t := left) (by simp) q.1.ip,
      hh.read hst (t := right) (by simp) q.1.ip, ok_bind, BinOp.leftFirst, if_true, h.world]
    exact activation_load hp

theorem failed_storeLocal {k : Nat} (hh : Here shared f s q (.storeLocal k) c e)
    (h : Follows shared f final s q) : Failed P s q (.storeLocal k) := by
  intro err hx
  rcases hst : c.stack with _ | ⟨t, rest⟩
  · cases hh.emission_eq hst
  · refine first_fails hh (Option.some.inj (hh.emission_eq hst)).symm trivial ?_
    simp only [Frame.exec, hh.stack_eq hst, List.map_cons] at hx
    split at hx
    · cases hx
    · next hk =>
      cases hx
      simp only [Activation.exec, hh.read hst (List.mem_cons_self ..) q.1.ip, ok_bind, h.locals,
        if_neg hk]

theorem failed_storeGlobal {k : Nat} (hh : Here shared f s q (.storeGlobal k) c e)
    (h : Follows shared f final s q) (hk : k < f.names.length) : Failed P s q (.storeGlobal k) := by
  intro err hx
  obtain ⟨name, -, hsafe, hraw⟩ := name_read hk
  rcases hst : c.stack with _ | ⟨t, rest⟩
  · cases hh.emission_eq hst
  · refine first_fails hh (Option.some.inj (hh.emission_eq hst)).symm trivial ?_
    simp only [Frame.exec, h.function, hsafe, ok_bind, hh.stack_eq hst, List.map_cons] at hx
    have hp := store_error hx
    simp only [Activation.exec, hh.read hst (List.mem_cons_self ..) q.1.ip, h.names, hraw, ok_bind,
      h.world]
    exact activation_act hp

theorem failed_storeReference {k : Nat} (hh : Here shared f s q (.storeReference k) c e)
    (h : Follows shared f final s q) : Failed P s q (.storeReference k) := by
  intro err hx
  rcases hst : c.stack with _ | ⟨t, rest⟩
  · cases hh.emission_eq hst
  · refine first_fails hh (Option.some.inj (hh.emission_eq hst)).symm trivial ?_
    simp only [Frame.exec, hh.stack_eq hst, List.map_cons] at hx
    simp only [Activation.exec, hh.read hst (List.mem_cons_self ..) q.1.ip, h.references, ok_bind,
      h.world]
    rcases bind_error hx with hx | ⟨r, hr, hx⟩
    · rw [hx]
      rfl
    · have hp := store_error hx
      rw [hr, ok_bind]
      exact activation_act hp

theorem failed_fieldStore {k : Nat} (hh : Here shared f s q (.fieldStore k) c e)
    (h : Follows shared f final s q) (hk : k < f.names.length) : Failed P s q (.fieldStore k) := by
  intro err hx
  obtain ⟨name, -, hsafe, hraw⟩ := name_read hk
  rcases hst : c.stack with _ | ⟨value, _ | ⟨record, rest⟩⟩
  · cases hh.emission_eq hst
  · cases hh.emission_eq hst
  · refine first_fails hh (Option.some.inj (hh.emission_eq hst)).symm trivial ?_
    simp only [Frame.exec, h.function, hsafe, ok_bind, hh.stack_eq hst, List.map_cons] at hx
    have hp := store_error hx
    simp only [Activation.exec, hh.mapM_read hst (l := [record, value]) (by simp), List.map_cons,
      List.map_nil, Activation.helperAction, h.names, hraw, ok_bind, pure_ok, h.world]
    exact activation_act hp

theorem failed_throwUninitialized {k : Nat} (hh : Here shared f s q (.throwUninitialized k) c e)
    (h : Follows shared f final s q) : Failed P s q (.throwUninitialized k) := by
  intro err hx
  refine first_fails hh (Option.some.inj hh.emission).symm trivial ?_
  simp only [Frame.exec, h.function] at hx
  simp only [Activation.exec, List.mapM_nil, pure_ok, ok_bind, h.names]
  rcases bind_error hx with hx | ⟨name, hname, hx⟩
  · rw [hx]
    rfl
  · cases hx
    rw [hname, ok_bind]

/-! Checked operations. -/

theorem check_fails (hh : Here shared f s q i c e) {stack : List Nat} (hst : c.stack = stack)
    {l : List (Assert × Nat)} {rest : List Instruction} {after : List Nat} {n : Nat}
    (hemit : e = ⟨checks l ++ rest, after, n⟩) (hl : ∀ p ∈ l, p.2 ∈ stack)
    (h : checked q.1 l = .error err) : FailsWith P q err := by
  subst hemit
  exact checks_fail rest hh.code (fun p hp => hh.read hst (hl p hp) q.1.ip) h

theorem failed_arithmetic (hh : Here shared f s q i c e) (op : Arithmetic) {b : BinOp} {a : Assert}
    (hvm : s.1.exec i s.2 = s.1.arithmetic op s.2)
    (hemit : translate f i c.stack c.temps = helperBinop b a c.stack c.temps)
    (hop : ∀ {left right : Value} {st : List Value} {err : Stop}, s.1.stack = right :: left :: st →
      op.apply left right = .error err → [right, left].forM a.check = .error err) :
    Failed P s q i := by
  intro err hx
  have he := hh.emission
  rw [hemit] at he
  rw [hvm, Frame.arithmetic, hh.stack] at hx
  rcases hst : c.stack with _ | ⟨right, _ | ⟨left, rest⟩⟩
  · rw [hst] at he; cases he
  · rw [hst] at he; cases he
  · rw [hst] at he hx
    have hv : op.apply (q.1.value left) (q.1.value right) = .error err := by
      rcases bind_error hx with hx | ⟨v, -, hx⟩
      · exact hx
      · cases hx
    exact check_fails (l := [(a, right), (a, left)]) hh hst (Option.some.inj he).symm
      (by simp) (hop (hh.stack_eq hst) hv)

/-- The operations on two integers fail as their checks do. -/
theorem integers_fail {op : Arithmetic} (hop : op ≠ .and) (hop' : op ≠ .or) (hdiv : op ≠ .div)
    {left right : Value} (h : op.apply left right = .error err) :
    [right, left].forM Assert.int.check = .error err := by
  cases op with
  | and => exact absurd rfl hop
  | or => exact absurd rfl hop'
  | div => exact absurd rfl hdiv
  | _ =>
    cases left with
    | integer l =>
      cases right with
      | integer r => cases h
      | _ => cases h; rfl
    | _ =>
      cases right with
      | integer r => cases h; rfl
      | _ => cases h; rfl

theorem failed_sub (hh : Here shared f s q .sub c e) : Failed P s q .sub :=
  failed_arithmetic hh .sub rfl rfl fun _ => integers_fail (by decide) (by decide) (by decide)

theorem failed_mul (hh : Here shared f s q .mul c e) : Failed P s q .mul :=
  failed_arithmetic hh .mul rfl rfl fun _ => integers_fail (by decide) (by decide) (by decide)

theorem failed_gt (hh : Here shared f s q .gt c e) : Failed P s q .gt :=
  failed_arithmetic hh .gt rfl rfl fun _ => integers_fail (by decide) (by decide) (by decide)

theorem failed_geq (hh : Here shared f s q .geq c e) : Failed P s q .geq :=
  failed_arithmetic hh .geq rfl rfl fun _ => integers_fail (by decide) (by decide) (by decide)

/-- `And` and `Or` fail as their checks do. -/
theorem booleans_fail {op : Arithmetic} (hop : op = .and ∨ op = .or) {left right : Value}
    (h : op.apply left right = .error err) : [right, left].forM Assert.bool.check = .error err := by
  rcases hop with rfl | rfl
  all_goals
    cases left with
    | boolean b =>
      cases right with
      | boolean r => cases b <;> cases h
      | _ =>
        cases b
        · cases h <;> rfl
        · cases h <;> rfl
    | _ =>
      cases right with
      | boolean r => cases h; rfl
      | _ => cases h; rfl

theorem failed_and (hh : Here shared f s q .and c e) : Failed P s q .and :=
  failed_arithmetic hh .and rfl rfl fun _ => booleans_fail (.inl rfl)

theorem failed_or (hh : Here shared f s q .or c e) : Failed P s q .or :=
  failed_arithmetic hh .or rfl rfl fun _ => booleans_fail (.inr rfl)

/-- The checks in front of a division, if the dividend of a division by zero is
an integer. -/
theorem division_fails {left right : Value} (hok : right = .integer 0 → ∃ l, left = .integer l)
    (h : Arithmetic.div.apply left right = .error err) :
    [(Assert.int, right), (.int, left), (.notZero, right)].forM (fun p => p.1.check p.2) =
      .error err := by
  cases right with
  | integer r =>
    by_cases hr : r = 0
    · subst hr
      obtain ⟨l, rfl⟩ := hok rfl
      cases h
      rfl
    · cases left with
      | integer l =>
        simp only [Arithmetic.apply, Value.getInteger, ok_bind, if_neg hr] at h
        cases h
      | _ =>
        simp only [Arithmetic.apply, Value.getInteger, ok_bind, if_neg hr] at h
        cases h
        rfl
  | _ => cases h; rfl

theorem failed_div (hh : Here shared f s q .div c e) (h : Follows shared f final s q)
    (hok : SameChecks s) : Failed P s q .div := by
  intro err hx
  have hi : s.1.function.instructions[s.1.ip]? = some .div := h.function ▸ hh.instruction
  unfold SameChecks at hok
  rcases hst : c.stack with _ | ⟨right, _ | ⟨left, rest⟩⟩
  · cases hh.emission_eq hst
  · cases hh.emission_eq hst
  · rw [hi, hh.stack_eq hst] at hok
    simp only [Frame.exec, Frame.arithmetic, hh.stack_eq hst, List.map_cons] at hx
    refine check_fails (l := [(.int, right), (.int, left), (.notZero, right)]) hh hst
      (Option.some.inj (hh.emission_eq hst)).symm (by simp) ?_
    have hv : Arithmetic.div.apply (q.1.value left) (q.1.value right) = .error err := by
      rcases bind_error hx with hx | ⟨v, -, hx⟩
      · exact hx
      · cases hx
    have hzero : q.1.value right = .integer 0 → ∃ l, q.1.value left = .integer l := by
      intro hr
      rw [List.map_cons, List.map_cons, hr] at hok
      exact hok
    exact division_fails hzero hv

theorem failed_neg (hh : Here shared f s q .neg c e) : Failed P s q .neg := by
  intro err hx
  rcases hst : c.stack with _ | ⟨t, rest⟩
  · cases hh.emission_eq hst
  · simp only [Frame.exec, hh.stack_eq hst, List.map_cons] at hx
    refine check_fails (l := [(.int, t)]) hh hst (Option.some.inj (hh.emission_eq hst)).symm
      (by simp) ?_
    show [(Assert.int, q.1.value t)].forM (fun p => p.1.check p.2) = _
    cases ht : q.1.value t with
    | integer k => rw [ht] at hx; cases hx
    | _ => rw [ht] at hx; cases hx; rfl

theorem failed_not (hh : Here shared f s q .not c e) : Failed P s q .not := by
  intro err hx
  rcases hst : c.stack with _ | ⟨t, rest⟩
  · cases hh.emission_eq hst
  · simp only [Frame.exec, hh.stack_eq hst, List.map_cons] at hx
    refine check_fails (l := [(.bool, t)]) hh hst (Option.some.inj (hh.emission_eq hst)).symm
      (by simp) ?_
    show [(Assert.bool, q.1.value t)].forM (fun p => p.1.check p.2) = _
    cases ht : q.1.value t with
    | boolean b => rw [ht] at hx; cases hx
    | _ => rw [ht] at hx; cases hx; rfl

theorem failed_ifTrue {l : Nat} (hh : Here shared f s q (.ifTrue l) c e) :
    Failed P s q (.ifTrue l) := by
  intro err hx
  rcases hst : c.stack with _ | ⟨t, rest⟩
  · cases hh.emission_eq hst
  · simp only [Frame.exec, hh.stack_eq hst, List.map_cons] at hx
    refine check_fails (l := [(.bool, t)]) hh hst (Option.some.inj (hh.emission_eq hst)).symm
      (by simp) ?_
    show [(Assert.bool, q.1.value t)].forM (fun p => p.1.check p.2) = _
    cases ht : q.1.value t with
    | boolean b => rw [ht] at hx; cases b <;> cases hx
    | _ => rw [ht] at hx; cases hx; rfl

/-! Instructions that do not fail on the operands they have. -/

omit [Reading P] in
theorem failed_call {k : Nat} (hh : Here shared f s q (.call k) c e) : Failed P s q (.call k) := by
  intro err hx
  rcases hst : c.stack with _ | ⟨t, rest⟩
  · cases hh.emission_eq hst
  · have hemit := hh.emission_eq hst
    simp only [translate, Option.ite_none_right_eq_some] at hemit
    simp only [Frame.exec, hh.stack_eq hst, List.map_cons, Frame.popMany, List.length_map, hemit.1,
      if_true, ok_bind] at hx
    cases hx

omit [Reading P] in
theorem failed_supplied (hh : Here shared f s q i c e)
    (hi : i = .ret ∨ i = .dup ∨ i = .swap ∨ i = .pop) : Failed P s q i := by
  intro err hx
  rcases hst : c.stack with _ | ⟨t, _ | ⟨t', rest⟩⟩
  · have hemit := hh.emission_eq hst
    rcases hi with rfl | rfl | rfl | rfl <;> cases hemit
  · have hemit := hh.emission_eq hst
    have hstack := hh.stack_eq hst
    rcases hi with rfl | rfl | rfl | rfl
    · simp only [Frame.exec, hstack, List.map_cons] at hx
      cases hx
    · simp only [Frame.exec, hstack, List.map_cons] at hx
      cases hx
    · cases hemit
    · simp only [Frame.exec, hstack, List.map_cons] at hx
      cases hx
  · have hstack := hh.stack_eq hst
    rcases hi with rfl | rfl | rfl | rfl <;>
      · simp only [Frame.exec, hstack, List.map_cons] at hx
        cases hx

/-- Where `run_function` fails at an instruction, compiled code fails alike. -/
theorem failed (hw : WellEmitted f) (hc : ConstantsInRange f)
    (hf : Compiler.compile shared f = some final)
    (hb : ∀ i ∈ f.instructions, i = .loadConst 0 ∨ i.InBounds f)
    (h : Follows shared f final s q) (hok : SameChecks s) {err : Stop}
    (hs : Frame.move s = .error err) : FailsWith P q err := by
  unfold Frame.move at hs
  split at hs
  · cases hs
  · next i hi =>
    have hx : s.1.exec i s.2 = .error err := by
      rcases bind_error hs with hx | ⟨o, -, hx⟩
      · exact hx
      · cases o <;> cases hx
    rw [h.function] at hi
    obtain ⟨c, e, hh⟩ := here hw hc hf h hi
    have hname := hb i (List.mem_of_getElem? hi)
    -- one lemma for each instruction that can fail
    have hfail : Failed P s q i := by
      cases i with
      | loadConst k => exact failed_loadConst hh h
      | loadFunc k => exact failed_loadFunc hh h
      | loadLocal k => exact failed_loadLocal hh h
      | storeLocal k => exact failed_storeLocal hh h
      | loadGlobal k => exact failed_loadGlobal hh h (hname.resolve_left nofun) hok
      | storeGlobal k => exact failed_storeGlobal hh h (hname.resolve_left nofun)
      | pushReference k => exact failed_pushReference hh h
      | loadReference k => exact failed_loadReference hh h
      | storeReference k => exact failed_storeReference hh h
      | allocRecord => exact failed_allocRecord hh h
      | fieldLoad k => exact failed_fieldLoad hh h (hname.resolve_left nofun)
      | fieldStore k => exact failed_fieldStore hh h (hname.resolve_left nofun)
      | indexLoad => exact failed_indexLoad hh h hok
      | indexStore => exact failed_indexStore hh h hok
      | allocClosure k => exact failed_allocClosure hh h
      | add => exact failed_add hh h
      | sub => exact failed_sub hh
      | mul => exact failed_mul hh
      | div => exact failed_div hh h hok
      | neg => exact failed_neg hh
      | gt => exact failed_gt hh
      | geq => exact failed_geq hh
      | eq => exact failed_eq hh h
      | and => exact failed_and hh
      | or => exact failed_or hh
      | not => exact failed_not hh
      | ifTrue l => exact failed_ifTrue hh
      | call k => exact failed_call hh
      | throwUninitialized k => exact failed_throwUninitialized hh h
      | ret => exact failed_supplied hh (.inl rfl)
      | dup => exact failed_supplied hh (.inr (.inl rfl))
      | swap => exact failed_supplied hh (.inr (.inr (.inl rfl)))
      | pop => exact failed_supplied hh (.inr (.inr (.inr rfl)))
      | goto l => exact fun _ hx => nomatch hx
      | garbageCollect => exact fun _ hx => nomatch hx
      | label l => exact fun _ hx => nomatch hx
    exact hfail err hx

/-! ## The simulation -/

/-- The code that is left in front of the end. -/
def rank (f : Function) (s : Frame × World) : Nat :=
  f.instructions.length - s.1.ip

/-- Where a jump back lands, there is the code of its label. -/
theorem no_jump_back (hw : WellEmitted f) (hc : ConstantsInRange f)
    (hf : Compiler.compile shared f = some final) {s' : Frame × World} {l : Nat}
    (hl : f.instructions[s'.1.ip]? = some (.label l)) (hne : s'.1.ip ≠ s.1.ip)
    (h : Follows shared f final s q) (h' : Follows shared f final s' q) : s.1.ip < s'.1.ip := by
  by_contra hle
  obtain ⟨c', e', hh'⟩ := here hw hc hf h' hl
  obtain ⟨c₁, hup₁, hlen₁, -⟩ := hh'.next
  obtain ⟨c, hup, hip, -⟩ := h.place
  have hprefix := (upto_extends (by omega) hup₁ hup).length_le
  obtain rfl := Option.some.inj hh'.emission
  rw [hlen₁, ← hip] at hprefix
  exact absurd hprefix (Nat.not_succ_le_self _)

/-- Without a step of compiled code `run_function` only goes forward. -/
theorem rank_lt (hw : WellEmitted f) (hc : ConstantsInRange f)
    (hf : Compiler.compile shared f = some final) {s' : Frame × World} {es : List Event}
    (h : Follows shared f final s q) (h' : Follows shared f final s' q)
    (hs : Frame.move s = .ok (.step es s')) : rank f s' < rank f s := by
  obtain ⟨i, ev, hi, hx, -⟩ := frame_step hs
  have hlt := (List.getElem?_eq_some_iff.mp (h.function ▸ hi)).1
  have hforward : s.1.ip < s'.1.ip := by
    rcases (StackDisciplineLemmas.exec_next hx).2.2 with ⟨hip, -⟩ | ⟨l, hl, hip⟩
    · omega
    · rw [h.function] at hi hip
      have hlands := jump_lands hw hi hl
      rw [← hip] at hlands
      refine no_jump_back hw hc hf hlands (fun heq => ?_) h h'
      rw [heq, hi, Option.some.injEq] at hlands
      subst hlands
      cases hl
  unfold rank
  omega

theorem stopped (hw : WellEmitted f) (hc : ConstantsInRange f)
    (hf : Compiler.compile shared f = some final) {b : Option Value × World}
    (h : Follows shared f final s q) (hs : Frame.move s = .ok (.stop b)) :
    (∃ b', P q = .ok (.stop b')) ∨ P q = .error .undefined := by
  obtain ⟨v | v, w⟩ := b
  · right
    have hend : f.instructions.length ≤ s.1.ip := by
      unfold Frame.move at hs
      split at hs
      · next hi =>
        rw [h.function] at hi
        exact List.getElem?_eq_none_iff.mp hi
      · obtain ⟨o, -, hm⟩ := bind_ok.mp hs
        cases o <;> cases hm
    have hip : s.1.ip = f.instructions.length := Nat.le_antisymm h.inside hend
    obtain ⟨c, hup, hq, -⟩ := h.place
    rw [hip, ← compile_eq_upto, hf, Option.some.injEq] at hup
    exact Reading.move_end (List.getElem?_eq_none_iff.mpr (by rw [h.code, hq, hup]))
  · exact .inl ⟨_, follows_stop hw hc hf h hs⟩

theorem failureSimulation (hw : WellEmitted f) (hc : ConstantsInRange f)
    (hf : Compiler.compile shared f = some final)
    (hb : ∀ i ∈ f.instructions, i = .loadConst 0 ∨ i.InBounds f)
    (hP : ∀ l r, ProductFits l r → Reading.fit P l r) :
    FailureSimulation Frame.move P SameChecks Shown (rank f) (Follows shared f final) where
  step h hok hs := follows_step hw hc hf h (sameChecks_logical hok) (sameChecks_fits hP hok) hs
  ask h _ hs := follows_ask hw hc hf h hs
  fail h hok hs := failed hw hc hf hb h hok hs
  stop h _ hs := (stopped hw hc hf h hs).imp_right fun hq => ⟨.undefined, id, hq⟩
  rank_lt h h' _ hs := rank_lt hw hc hf h h' hs

end

end FailuresLemmas

open FailuresLemmas

/-- Of the runs whose states satisfy `ok`, those that raise are the same for
`run_function` and for its machine code, with the same exception behind the same events;
a call in them may raise in the place of a value. -/
def FailuresAgree (shared : Operands) (f : Function) (ok : Frame × World → Prop) : Prop :=
  ∃ c, Compiler.compile shared f = some c ∧
    ∀ (env : Request × World → Except Stop (Value × World) → Prop) (fr : Frame) (w : World)
      (temps : Nat → Option Value) (retVal : Value)
      (t : List (Label Event (Request × World) (Except Stop (Value × World)))) (err : Stop),
      fr.function = f → fr.ip = 0 → fr.stack = [] → Shown err →
      (∀ n u s, Run (Process.raising Frame.move) env (fun _ => True) n (.ok (fr, w)) u s →
        u <+: t → WhenOk ok s) →
      ((∃ n, FailsAfter (Process.raising Frame.move) env (fun _ => True) n (.ok (fr, w)) t err) ↔
        ∃ n, FailsAfter (Process.raising Activation.emitted) env (fun _ => True) n
          (.ok (Activation.of fr c temps retVal, w)) t err)

/-- A function of a compiled program raises in machine code what it raises in
`run_function`, as long as the checks of the two are the same and its products fit. -/
theorem failures_agree (prog : Program) {f : Function} (h : SubFunction (Beaverc.compile prog) f)
    (hc : ConstantsInRange f) (shared : Operands) : FailuresAgree shared f SameChecks := by
  have hw := compile_wellEmitted prog h
  obtain ⟨c, hup, -⟩ := upto_tracks shared hw hc le_rfl
  have hf : Compiler.compile shared f = some c := compile_eq_upto ▸ hup
  refine ⟨c, hf, fun env fr w temps retVal t err hfn hip hst hshown hok => ?_⟩
  have hsim := failureSimulation (P := Activation.emitted) hw hc hf (compile_operands prog h)
    fun _ _ hfits => hfits
  exact hsim.raising.fails_iff hshown (.ok (follows_start hfn hip hst)) hok

/-- `f = fun(g a) { return g(a * a); };` -/
def callsSquare : Program :=
  .cons (.assignment (.name "f") (.function ["g", "a"] (.cons (.ret (.call (.name "g")
    (.cons (.binaryOp .mul (.lhs (.name "a")) (.lhs (.name "a"))) .nil))) .nil))) .nil

/-- The function in it. -/
def callsSquareFunction : Function :=
  { constants := [.none], localVars := ["g", "a"], parameterCount := 2, argMapping := [-1, -1]
    instructions := [.loadLocal 1, .loadLocal 1, .mul, .loadLocal 0, .call 1, .ret, .loadConst 0,
      .ret] }

/-- Calls of what is no function, which raise. -/
def Refused : Request × World → Except Stop (Value × World) → Prop
  | (.call function arguments, w), a =>
    ∃ e, enter function arguments w = .error e ∧ a = .error e
  | _, _ => False

namespace FailuresLemmas

theorem callsSquare_sub : SubFunction (Beaverc.compile callsSquare) callsSquareFunction := by
  have hfs : (Beaverc.compile callsSquare).functions = [callsSquareFunction] := rfl
  exact .step (.refl _) (by rw [hfs]; exact List.mem_singleton.mpr rfl)

theorem callsSquare_constants : ConstantsInRange callsSquareFunction := by
  intro k hk
  simp only [callsSquareFunction, List.mem_cons, Instruction.loadConst.injEq, reduceCtorEq,
    List.not_mem_nil, or_false, false_or] at hk
  rw [hk]
  decide

/-- `None` is called with the square of 3. -/
def callsNone (w : World) (stack : List Value) (ip : Nat) : Frame × World :=
  (⟨0, callsSquareFunction, [], [.none, .integer 3], stack, ip⟩, w)

theorem callsNone_ask (w : World) : Process.raising Frame.move
    (.ok (callsNone w [.none, .integer 9] 4)) =
      .ok (.ask (.call .none [.integer 9], w) fun a =>
        a.map fun a => callsNone a.2 [a.1] 5) := by
  rfl

/-- In every state on the way the checks are the same, and 9 fits. -/
theorem callsNone_checks {w : World} {n : Nat} {s : Except Stop (Frame × World)}
    {u : List (Label Event (Request × World) (Except Stop (Value × World)))}
    (hr : Run (Process.raising Frame.move) Refused (fun _ => True) n (.ok (callsNone w [] 0)) u s) :
    WhenOk SameChecks s := by
  have at_state (stack : List Value) (ip : Nat) (h : SameChecks (callsNone w stack ip)) :
      WhenOk SameChecks (.ok (callsNone w stack ip) : Except Stop (Frame × World)) := by
    intro s₀ hs
    cases hs
    exact h
  cases hr with
  | refl => exact at_state [] 0 trivial
  | ask _ hs => cases hs
  | step _ hs hr =>
  cases hs
  cases hr with
  | refl => exact at_state [.integer 3] 1 trivial
  | ask _ hs => cases hs
  | step _ hs hr =>
  cases hs
  cases hr with
  | refl =>
    have hfits : ProductFits 3 3 := by decide
    exact at_state [.integer 3, .integer 3] 2 hfits
  | ask _ hs => cases hs
  | step _ hs hr =>
  cases hs
  cases hr with
  | refl => exact at_state [.integer 9] 3 trivial
  | ask _ hs => cases hs
  | step _ hs hr =>
  cases hs
  cases hr with
  | refl => exact at_state [.none, .integer 9] 4 trivial
  | step _ hs => cases hs
  | ask _ hs ha hr =>
  -- the call raises
  cases hs
  obtain ⟨e, -, rfl⟩ := ha
  cases hr with
  | refl =>
    intro s₀ hs
    cases hs
  | step _ hs => cases hs
  | ask _ hs => cases hs

end FailuresLemmas

/-- Both sides report that `None` is no function. -/
theorem failures_agree_refused : ∃ c, Compiler.compile .fresh callsSquareFunction = some c ∧
    ∀ (w : World) (temps : Nat → Option Value) (retVal : Value),
      ∃ n, FailsAfter (Process.raising Activation.emitted) Refused (fun _ => True) n
        (.ok (Activation.of (callsNone w [] 0).1 c temps retVal, w))
        [.exchange (.call .none [.integer 9], w)
          (.error (.raised .illegalCast "Can't cast this value to a pointer type."))]
        (.raised .illegalCast "Can't cast this value to a pointer type.") := by
  obtain ⟨c, hc, hagree⟩ := failures_agree callsSquare callsSquare_sub callsSquare_constants .fresh
  refine ⟨c, hc, fun w temps retVal => ?_⟩
  let err : Stop := .raised .illegalCast "Can't cast this value to a pointer type."
  have hshown : Shown err := trivial
  have hargs : Silent (Process.raising Frame.move) (.ok (callsNone w [] 0)) []
      (.ok (callsNone w [.none, .integer 9] 4)) :=
    .quiet rfl (.quiet rfl (.quiet rfl (.quiet rfl (.refl _))))
  have hcall : Run (Process.raising Frame.move) Refused (fun _ => True) 1
      (.ok (callsNone w [.none, .integer 9] 4))
      [.exchange (.call .none [.integer 9], w) (.error err)] (.error err) :=
    .ask trivial (callsNone_ask w) ⟨err, rfl, rfl⟩ (.refl _)
  obtain ⟨m, hm⟩ := hargs.run
  exact (hagree Refused (callsNone w [] 0).1 w temps retVal _ err rfl rfl rfl hshown
    fun n u s hr _ => callsNone_checks hr).mp ⟨_, .error err, hm.trans hcall, trivial, rfl⟩

/-- `if (false) { x = 1; } f = fun() { return x; };` -/
def unset : Program :=
  .cons (.ifStatement (.boolConst false) (.cons (.assignment (.name "x") (.intConst 1)) .nil) .nil)
    (.cons (.assignment (.name "f") (.function []
      (.cons (.ret (.lhs (.name "x"))) .nil))) .nil)

/-- The function in it. -/
def unsetFunction : Function :=
  { constants := [.none], names := ["x"],
    instructions := [.loadGlobal 0, .ret, .loadConst 0, .ret] }

namespace FailuresLemmas

theorem unset_sub : SubFunction (Beaverc.compile unset) unsetFunction := by
  have hfs : (Beaverc.compile unset).functions = [unsetFunction] := rfl
  exact .step (.refl _) (by rw [hfs]; exact List.mem_singleton.mpr rfl)

theorem unset_constants : ConstantsInRange unsetFunction := by
  intro k hk
  simp only [unsetFunction, List.mem_cons, Instruction.loadConst.injEq, reduceCtorEq,
    List.not_mem_nil, or_false, false_or] at hk
  rw [hk]
  decide

theorem unset_code (shared : Operands) :
    (Compiler.compile shared unsetFunction).map Compiler.instructions = some
      [.assign 0 (.glob 0), .ret 0, .assign 1 (.const .none), .ret 1] := by
  rfl

end FailuresLemmas

/-- Before `x` is stored `run_function` raises at its load, and compiled code reads
`None`. -/
theorem unset_not_agrees :
    SubFunction (Beaverc.compile unset) unsetFunction ∧ ConstantsInRange unsetFunction ∧
      ¬ FailuresAgree .fresh unsetFunction (fun _ => True) := by
  refine ⟨unset_sub, unset_constants, ?_⟩
  rintro ⟨c, hc, hrun⟩
  have hcode := unset_code .fresh
  rw [hc] at hcode
  replace hcode := Option.some.inj hcode
  let w : World := ⟨CollectedHeap.empty (.x64 false false), 0, [], [], []⟩
  let fr : Frame := ⟨0, unsetFunction, [], [], [], 0⟩
  have hvm : Process.raising Frame.move (.ok (fr, w)) = .error (.raised .uninitializedVariable
      ("x" ++ " has not been assigned yet, but it has been used")) := rfl
  obtain ⟨n, q, hr, -, herr⟩ := (hrun (fun _ _ => False) fr w (fun _ => none) .none []
    (.raised .uninitializedVariable ("x" ++ " has not been assigned yet, but it has been used"))
    rfl rfl rfl trivial fun _ _ _ _ _ _ _ => trivial).mp ⟨0, _, .refl _, trivial, hvm⟩
  unfold Activation.of at hr
  rw [hcode] at hr
  obtain ⟨t, ht, hr⟩ : ∃ t, t = [] ∧
    Run (Process.raising Activation.emitted) (fun _ _ => False) (fun _ => True) n _ t q :=
    ⟨[], rfl, hr⟩
  -- the first move of compiled code shows the load
  cases hr with
  | refl => cases herr
  | step _ hstep _ =>
    cases hstep
    cases ht
  | ask _ hask _ _ => cases hask

end Beaverc.Ir
