import Mathlib.Tactic.Common
import Beaverc.StackDiscipline

/-!
# The bytecode checker

`BC::Checker` (`bccchecker/Checker.h`) walks over the instructions of each
function once, in the order of the list, and keeps the size the operand stack
would have. It compares that size with 1 at `Return` and `If` and with 0 at the
end, and nowhere asks whether the operands of an instruction are there, nor
what the size is where a jump arrives. So what it accepts keeps the stack
discipline just where its count is the right one.
-/

namespace Beaverc
open Process Results StepsLemmas StackDisciplineLemmas

namespace Checker

/-- How the checker ends without accepting: its two messages, and the overflow
of the `int` it counts with. -/
inductive Rejection where
  | wrongSize (size correct : Int)
  | unexpectedOpcode
  | undefined
deriving DecidableEq, Repr

/-- What it prints before `exit(1)`. -/
def Rejection.text : Rejection → Option String
  | .wrongSize size correct =>
    some ("Stack is not the correct size - is " ++ toString size ++ " should be " ++
      toString correct)
  | .unexpectedOpcode => some "Unexpected opcode"
  | .undefined => none

/-- `assertSize`. -/
def assertSize (size correct : Int) : Except Rejection Unit :=
  if size = correct then .ok () else .error (.wrongSize size correct)

/-- `current_stack_size += change`. -/
def resize (size change : Int) : Except Rejection Int :=
  if -0x80000000 ≤ size + change ∧ size + change < 0x80000000 then .ok (size + change)
  else .error .undefined

/-- The `switch` of `checkFunction`. -/
def checkInstruction (size : Int) : Instruction → Except Rejection Int
  | .loadConst _ | .loadFunc _ | .loadLocal _ | .loadGlobal _ | .pushReference _
  | .loadReference _ | .allocRecord | .dup => resize size 1
  | .fieldLoad _ | .neg | .not | .goto _ | .garbageCollect | .label _ | .swap => .ok size
  -- these two fall through to the next group
  | .ret | .ifTrue _ => do
    assertSize size 1
    resize size (-1)
  | .storeLocal _ | .storeGlobal _ | .storeReference _ | .add | .gt | .geq | .sub | .mul | .div
  | .eq | .and | .or | .pop | .indexLoad => resize size (-1)
  | .fieldStore _ => resize size (-2)
  | .indexStore => resize size (-3)
  | .allocClosure n | .call n => resize size (-n)
  | .throwUninitialized _ => .error .unexpectedOpcode

/-- The loop of `checkFunction`. -/
def checkInstructions (size : Int) : List Instruction → Except Rejection Int
  | [] => .ok size
  | i :: rest => do checkInstructions (← checkInstruction size i) rest

mutual

/-- `checkFunction`. -/
def checkFunction : Function → Except Rejection Unit
  | ⟨functions, _, _, _, _, _, _, instructions, _, _⟩ => do
    assertSize (← checkInstructions 0 instructions) 0
    checkFunctions functions

def checkFunctions : List Function → Except Rejection Unit
  | [] => .ok ()
  | f :: rest => do
    checkFunction f
    checkFunctions rest

end

/-- `check`. -/
def check (main : Function) : Except Rejection Unit :=
  checkFunction main

end Checker

/-! ## What the checker counts -/

/-- What an instruction adds to the number of operands. -/
def Instruction.change (i : Instruction) : Int :=
  i.pushes - i.pops

/-- The number the checker counts in front of position `p`: the instructions
before it in the list, jumps or no jumps. -/
def Function.countBefore (f : Function) (p : Nat) : Int :=
  (f.instructions.take p).foldl (fun size i => size + i.change) 0

namespace Checker

namespace CheckerLemmas

theorem assertSize_ok {size correct : Int} (h : assertSize size correct = .ok ()) :
    size = correct := by
  unfold assertSize at h
  split at h
  · next he => exact he
  · cases h

theorem resize_ok {size change size' : Int} (h : resize size change = .ok size') :
    size' = size + change := by
  unfold resize at h
  split at h
  · exact (Except.ok.inj h).symm
  · cases h

/-- What acceptance of an instruction says. -/
theorem checkInstruction_ok {size size' : Int} {i : Instruction}
    (h : checkInstruction size i = .ok size') :
    size' = size + i.change ∧ (i.takesAll = true → size = 1) := by
  cases i with
  | throwUninitialized => cases h
  | ret | ifTrue =>
    obtain ⟨_, ha, hr⟩ := bind_ok.mp h
    exact ⟨resize_ok hr, fun _ => assertSize_ok ha⟩
  | fieldLoad | neg | not | goto | garbageCollect | label | swap =>
    cases h
    exact ⟨(Int.add_zero _).symm, fun ht => absurd ht Bool.false_ne_true⟩
  | allocClosure n | call n =>
    refine ⟨?_, fun ht => absurd ht Bool.false_ne_true⟩
    rw [resize_ok h]
    simp only [Instruction.change, Instruction.pushes, Instruction.pops, Instruction.effect]
    omega
  | _ => exact ⟨resize_ok h, fun ht => absurd ht Bool.false_ne_true⟩

/-- The count after the first `p` instructions of accepted code, and what was
asserted at the next one. -/
theorem checkInstructions_at {is : List Instruction} {size total : Int}
    (h : checkInstructions size is = .ok total) {p : Nat} {i : Instruction}
    (hi : is[p]? = some i) (ht : i.takesAll = true) :
    (is.take p).foldl (fun size i => size + i.change) size = 1 := by
  induction is generalizing size p with
  | nil => cases hi
  | cons j rest ih =>
    obtain ⟨next, hj, hrest⟩ := bind_ok.mp h
    obtain ⟨rfl, hone⟩ := checkInstruction_ok hj
    cases p with
    | zero =>
      cases hi
      exact hone ht
    | succ p => exact ih hrest hi

theorem checkFunctions_mem {l : List Function} (h : checkFunctions l = .ok ()) {f : Function}
    (hf : f ∈ l) : checkFunction f = .ok () := by
  induction l with
  | nil => cases hf
  | cons g rest ih =>
    obtain ⟨_, hg, hrest⟩ := bind_ok.mp h
    rcases List.mem_cons.mp hf with rfl | hf
    · exact hg
    · exact ih hrest hf

theorem checkFunction_ok {f : Function} (h : checkFunction f = .ok ()) :
    (∃ total, checkInstructions 0 f.instructions = .ok total) ∧
      checkFunctions f.functions = .ok () := by
  obtain ⟨functions, constants, parameterCount, localVars, localReferenceVars, freeVars, names,
    instructions, argMapping, labels⟩ := f
  rw [checkFunction] at h
  obtain ⟨total, hi, hrest⟩ := bind_ok.mp h
  obtain ⟨_, -, hf⟩ := bind_ok.mp hrest
  exact ⟨⟨total, hi⟩, hf⟩

/-- The checker goes into every function of the tree. -/
theorem check_subFunction {main f : Function} (hf : SubFunction main f)
    (h : check main = .ok ()) : checkFunction f = .ok () := by
  induction hf with
  | refl => exact h
  | step _ hm ih => exact checkFunctions_mem (checkFunction_ok ih).2 hm

/-- In accepted code one value is counted in front of each `Return` and `If`. -/
theorem countBefore_takesAll {main f : Function} (hf : SubFunction main f)
    (h : check main = .ok ()) {p : Nat} {i : Instruction} (hi : f.instructions[p]? = some i)
    (ht : i.takesAll = true) : f.countBefore p = 1 := by
  obtain ⟨⟨total, hrun⟩, -⟩ := checkFunction_ok (check_subFunction hf h)
  exact checkInstructions_at hrun hi ht

theorem countBefore_succ {f : Function} {p : Nat} {i : Instruction}
    (hi : f.instructions[p]? = some i) : f.countBefore (p + 1) = f.countBefore p + i.change := by
  unfold Function.countBefore
  rw [List.take_add_one, hi, Option.toList_some, List.foldl_append]
  rfl

end CheckerLemmas

end Checker

/-! ## Runs of accepted functions -/

/-- The label a frame is about to jump to: that of a `Goto`, or of an `If` on
`true`. -/
def Frame.taken? (fr : Frame) : Option Nat :=
  match fr.function.instructions[fr.ip]?, fr.stack with
  | some (.goto l), _ => some l
  | some (.ifTrue l), .boolean true :: _ => some l
  | _, _ => none

/-- A jump that is taken here arrives at a position in front of which the checker
counted what the jump leaves. -/
def Frame.JumpCounted (fr : Frame) : Prop :=
  ∀ l i, fr.taken? = some l → fr.function.instructions[fr.ip]? = some i →
    fr.function.countBefore (fr.function.labelPosition l) =
      fr.function.countBefore fr.ip + i.change

/-- The instruction stops before it looks for an operand that is missing: at its index
into `names_`, or at what it makes of the operands that are there. -/
def Frame.FailsFirst (s : Frame × World) : Instruction → Prop
  | .storeGlobal n | .fieldLoad n | .fieldStore n => s.1.function.names.length ≤ n
  | .indexLoad => ∃ index, s.1.stack = [index] ∧ ∃ e, index.toText s.2.heap = .error e
  | .indexStore => ∃ v index, s.1.stack = [v, index] ∧ ∃ e, index.toText s.2.heap = .error e
  | .allocClosure n => ∃ function rest, s.1.stack = function :: rest ∧ rest.length < n ∧
      ∃ e, s.2.allocClosure function rest = .error e
  | .call n => ∃ function rest, s.1.stack = function :: rest ∧ rest.length < n ∧
      ∃ e, function.getPointer Payload.isFunction s.2.heap = .error e
  | _ => False

/-- The checker counted enough values in front of the next instruction, or that one stops
before it looks for more. -/
def Frame.OperandsCounted (s : Frame × World) : Prop :=
  ∀ i, s.1.function.instructions[s.1.ip]? = some i →
    Frame.FailsFirst s i ∨ (i.pops : Int) ≤ s.1.function.countBefore s.1.ip

/-- The state of a running function in which no `InsufficentStackException` comes
next, and a `Return` that comes next finds one value. -/
structure Frame.Sound (s : Frame × World) : Prop where
  supplied : Supplied (Frame.move s)
  ret : s.1.function.instructions[s.1.ip]? = some .ret → s.1.stack.length = 1

/-- The operand stack has the size the checker counted. -/
structure Checker.Counted (f : Function) (s : Frame × World) : Prop where
  function : s.1.function = f
  size : (s.1.stack.length : Int) = f.countBefore s.1.ip

namespace Checker

namespace CheckerLemmas

/-- A check in front of a missing operand. -/
theorem supplied_check {α β : Type} {x : Except Stop α} (hx : Supplied x) :
    Supplied (x >>= fun _ => (insufficentStack : Except Stop β)) ↔ ∃ e, x = .error e := by
  cases x with
  | ok a => exact ⟨fun hs => absurd rfl (hs _), nofun⟩
  | error e => exact ⟨fun _ => ⟨e, rfl⟩, fun _ m hm => hx m (congrArg _ (Except.error.inj hm))⟩

theorem supplied_name {α : Type} {names : List String} {n : Nat} :
    Supplied (safeIndex names n >>= fun _ => (insufficentStack : Except Stop α)) ↔
      names.length ≤ n := by
  refine (supplied_check (supplied_safeIndex names n)).trans ?_
  unfold safeIndex
  cases hn : names[n]? with
  | none => exact ⟨fun _ => List.getElem?_eq_none_iff.mp hn, fun _ => ⟨_, rfl⟩⟩
  | some name =>
    exact ⟨nofun, fun hle => nomatch hn.symm.trans (List.getElem?_eq_none hle)⟩

theorem supplied_popMany_iff {α β : Type} {check : Except Stop α} {n : Nat} {stack : List Value}
    (hn : stack.length < n) (hc : Supplied check) {g : List Value × List Value → Except Stop β} :
    Supplied (Frame.popMany check n stack >>= g) ↔ ∃ e, check = .error e := by
  unfold Frame.popMany
  rw [if_neg (Nat.not_le.mpr hn)]
  refine Iff.trans ?_ (supplied_check (β := β) hc)
  cases check with
  | ok a => exact Iff.rfl
  | error e => exact Iff.rfl

/-- An instruction without its operands raises the exception, unless it fails first. -/
theorem supplied_iff_failsFirst {i : Instruction} {fr : Frame} {w : World}
    (h : fr.stack.length < i.pops) : Supplied (fr.exec i w) ↔ Frame.FailsFirst (fr, w) i := by
  obtain ⟨closure, f, references, locals, stack, ip⟩ := fr
  have hnot {x : Except Stop Outcome} {m : String}
      (hx : x = .error (.raised .insufficentStack m)) {i : Instruction} (hi : ¬ Frame.FailsFirst
        (⟨closure, f, references, locals, stack, ip⟩, w) i) :
      Supplied x ↔ Frame.FailsFirst (⟨closure, f, references, locals, stack, ip⟩, w) i :=
    ⟨fun hs => absurd hx (hs m), fun hf => absurd hf hi⟩
  cases i with
  | storeLocal | storeReference | neg | not | ifTrue | ret | dup | pop =>
    obtain _ | ⟨v, rest⟩ := stack
    · exact hnot rfl id
    · exact absurd h (Nat.not_lt.mpr (Nat.le_add_left 1 _))
  | storeGlobal n | fieldLoad n =>
    obtain _ | ⟨v, rest⟩ := stack
    · exact supplied_name
    · exact absurd h (Nat.not_lt.mpr (Nat.le_add_left 1 _))
  | fieldStore n =>
    obtain _ | ⟨v, _ | ⟨record, rest⟩⟩ := stack
    · exact supplied_name
    · exact supplied_name
    · exact absurd h (Nat.not_lt.mpr (Nat.le_add_left 2 _))
  | add | sub | mul | div | gt | geq | eq | and | or | swap =>
    obtain _ | ⟨right, _ | ⟨left, rest⟩⟩ := stack
    · exact hnot rfl id
    · exact hnot rfl id
    · exact absurd h (Nat.not_lt.mpr (Nat.le_add_left 2 _))
  | indexLoad =>
    obtain _ | ⟨index, _ | ⟨record, rest⟩⟩ := stack
    · refine hnot rfl ?_
      rintro ⟨_, he, _⟩
      cases he
    · refine (supplied_check (supplied_toText _ index)).trans ?_
      refine ⟨fun he => ⟨index, rfl, he⟩, ?_⟩
      rintro ⟨_, hst, he⟩
      cases hst
      exact he
    · exact absurd h (Nat.not_lt.mpr (Nat.le_add_left 2 _))
  | indexStore =>
    obtain _ | ⟨v, _ | ⟨index, _ | ⟨record, rest⟩⟩⟩ := stack
    · refine hnot rfl ?_
      rintro ⟨_, _, he, _⟩
      cases he
    · refine hnot rfl ?_
      rintro ⟨_, _, he, _⟩
      cases he
    · refine (supplied_check (supplied_toText _ index)).trans ?_
      refine ⟨fun he => ⟨v, index, rfl, he⟩, ?_⟩
      rintro ⟨_, _, hst, he⟩
      cases hst
      exact he
    · exact absurd h (Nat.not_lt.mpr (Nat.le_add_left 3 _))
  | allocClosure n =>
    obtain _ | ⟨function, rest⟩ := stack
    · refine hnot rfl ?_
      rintro ⟨_, _, he, _⟩
      cases he
    · have hlt : rest.length < n := Nat.lt_of_succ_lt_succ h
      refine (supplied_popMany_iff hlt (supplied_allocClosure function rest w)).trans ?_
      refine ⟨fun he => ⟨function, rest, rfl, hlt, he⟩, ?_⟩
      rintro ⟨_, _, hst, -, he⟩
      cases hst
      exact he
  | call n =>
    obtain _ | ⟨function, rest⟩ := stack
    · refine hnot rfl ?_
      rintro ⟨_, _, he, _⟩
      cases he
    · have hlt : rest.length < n := Nat.lt_of_succ_lt_succ h
      refine (supplied_popMany_iff hlt (supplied_getPointer _ function _)).trans ?_
      refine ⟨fun he => ⟨function, rest, rfl, hlt, he⟩, ?_⟩
      rintro ⟨_, _, hst, -, he⟩
      cases hst
      exact he
  | _ => exact absurd h (Nat.not_lt_zero _)

/-- An instruction that fails first does not miss an operand, whatever is on the stack. -/
theorem supplied_exec_iff {i : Instruction} {fr : Frame} {w : World} :
    Supplied (fr.exec i w) ↔ Frame.FailsFirst (fr, w) i ∨ i.pops ≤ fr.stack.length := by
  rcases Nat.lt_or_ge fr.stack.length i.pops with hlt | hge
  · rw [supplied_iff_failsFirst hlt]
    exact ⟨.inl, fun h => h.resolve_right (Nat.not_le.mpr hlt)⟩
  · exact ⟨fun _ => .inr hge, fun _ => supplied_exec w hge⟩

/-- Control goes to the next instruction, or jumps. -/
theorem exec_taken {i : Instruction} {fr fr' : Frame} {w w' : World} {ev : Option Event}
    (hi : fr.function.instructions[fr.ip]? = some i)
    (h : fr.exec i w = .ok (.next fr' w' ev)) :
    fr'.ip = fr.ip + 1 ∨
      ∃ l, fr.taken? = some l ∧ fr'.ip = fr.function.labelPosition l := by
  obtain ⟨-, -, ⟨hip, -⟩ | ⟨l, hl, hip⟩⟩ := exec_next h
  · exact .inl hip
  · obtain ⟨closure, f, references, locals, stack, ip⟩ := fr
    cases i with
    | goto =>
      cases hl
      refine .inr ⟨l, ?_, hip⟩
      simp only [Frame.taken?, hi]
    | ifTrue =>
      cases hl
      obtain _ | ⟨v, rest⟩ := stack
      · cases h
      · obtain ⟨b, hb, ho⟩ := bind_ok.mp h
        split at ho
        · next hbt =>
          refine .inr ⟨l, ?_, hip⟩
          subst hbt
          cases v with
          | boolean =>
            cases hb
            simp only [Frame.taken?, hi]
          | _ => cases hb
        · cases ho
          exact .inl rfl
    | _ => cases hl

/-- The step lemma: a counted jump keeps the stack at the size the checker counted. -/
theorem counted_step {f : Function} {s s' : Frame × World} {es : List Event}
    (hs : Counted f s) (hj : s.1.JumpCounted) (h : Frame.move s = .ok (.step es s')) :
    Counted f s' := by
  obtain ⟨i, ev, hi, hx, -⟩ := frame_step h
  obtain ⟨hf, hlen, -⟩ := exec_next hx
  refine ⟨hf.trans hs.function, ?_⟩
  have hchange : (s'.1.stack.length : Int) = f.countBefore s.1.ip + i.change := by
    rw [hlen, hs.size, Instruction.change]
    omega
  have hfun := hs.function
  rcases exec_taken hi hx with hip | ⟨l, hl, hip⟩
  · rw [hip, hchange]
    rw [hfun] at hi
    exact (countBefore_succ hi).symm
  · have hjump := hj l i hl hi
    rw [hfun] at hjump hip
    rw [hip, hjump, hchange]

theorem counted_ask {f : Function} {s : Frame × World} {r : Request × World}
    {next : Value × World → Frame × World} (hs : Counted f s)
    (h : Frame.move s = .ok (.ask r next)) (a : Value × World) : Counted f (next a) := by
  obtain ⟨i, hi, ⟨g, as, fr, hx, -, rfl⟩ | ⟨fr, hx, -, rfl⟩⟩ := frame_ask h
  · obtain ⟨hf, hip, -, hlen⟩ := exec_call hx
    have hsize := hs.size
    rw [hs.function] at hi
    refine ⟨hf.trans hs.function, ?_⟩
    show ((fr.stack.length + 1 : Nat) : Int) = f.countBefore fr.ip
    rw [hip, countBefore_succ hi, Int.natCast_succ, hlen, hsize, Instruction.change]
    omega
  · obtain ⟨rfl, rfl⟩ := exec_collect hx
    rw [hs.function] at hi
    refine ⟨hs.function, ?_⟩
    show (s.1.stack.length : Int) = f.countBefore (s.1.ip + 1)
    rw [countBefore_succ hi, hs.size]
    exact (Int.add_zero _).symm

/-- The run lemma. -/
theorem run_counted {f : Function} {env : Request × World → Value × World → Prop} {n : Nat}
    {s s' : Frame × World} {t : List (Label Event (Request × World) (Value × World))}
    (h : Run Frame.move env (fun s => s.1.JumpCounted) n s t s') (hs : Counted f s) :
    Counted f s' :=
  h.invariant (fun _ _ _ hs hj hm => counted_step hs hj hm)
    (fun _ _ _ a hs _ hm _ => counted_ask hs hm a) hs

theorem supplied_move {s : Frame × World} :
    Supplied (Frame.move s) ↔
      ∀ i, s.1.function.instructions[s.1.ip]? = some i → Supplied (s.1.exec i s.2) := by
  unfold Frame.move
  split
  · next hi => exact ⟨fun _ i h => (nomatch hi.symm.trans h), fun _ => supplied_ok _⟩
  · next i hi =>
    constructor
    · intro hs j hj m hm
      cases hi.symm.trans hj
      refine hs m ?_
      rw [hm, error_bind]
    · intro hs
      refine supplied_bind (hs i hi) fun o _ => ?_
      cases o with
      | _ => exact supplied_ok _

/-- Where the stack has the size that was counted, an instruction finds its operands
just when they were counted. -/
theorem supplied_iff {f : Function} {s : Frame × World} (hs : Counted f s) :
    Supplied (Frame.move s) ↔ Frame.OperandsCounted s := by
  rw [supplied_move]
  have hsize := hs.size
  rw [← hs.function] at hsize
  refine forall₂_congr fun i _ => ?_
  rw [supplied_exec_iff, ← hsize, Int.ofNat_le]

end CheckerLemmas

open CheckerLemmas

/-- `loadConst 0; ifTrue 0; loadConst 0; ret; label 0; loadConst 0; ret` -/
def branches : Function :=
  { constants := [.boolean true], labels := [(0, 4)],
    instructions := [.loadConst 0, .ifTrue 0, .loadConst 0, .ret, .label 0, .loadConst 0, .ret] }

/-- `pop; loadConst 0` -/
def popFirst : Function :=
  { constants := [.none], instructions := [.pop, .loadConst 0] }

end Checker

end Beaverc
