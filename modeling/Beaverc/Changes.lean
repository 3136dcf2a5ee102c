import Beaverc.Base.Results
import Beaverc.Passes

/-!
# What a move of compiled code does

A move of an activation that only steps is a `Change`: temps that are written, a
local that is stored, a new `RetVal`, a new place. `exec_agrees` compares an
instruction on two activations that differ in code, locals and temps: where the
instruction looks at the same things it makes the same change.
-/

namespace Beaverc.Ir
open Results

/-! ## Control flow -/

/-- The label an instruction may jump to. -/
def Instruction.target? : Instruction → Option Nat
  | .jump l | .shortJump l | .condJump _ l => some l
  | _ => none

/-- Whether control can go on to the next instruction. -/
def Instruction.falls : Instruction → Bool
  | .jump _ | .shortJump _ | .ret _ | .callHelper (.throwUninitialized _) _ => false
  | _ => true

/-- The variable an instruction stores to. -/
def Instruction.stored? : Instruction → Option Nat
  | .store (.var n) _ => some n
  | _ => none

/-- Control can pass from one position to the other. -/
inductive Flows (code : List Instruction) : Nat → Nat → Prop
  | next {p : Nat} {i : Instruction} : code[p]? = some i → i.falls = true → Flows code p (p + 1)
  | jump {p l : Nat} {i : Instruction} : code[p]? = some i → i.target? = some l →
      Flows code p (position code l)

/-! ## Changes -/

/-- What a step does to an activation. -/
structure Change where
  temps : List (Nat × Value) := []
  stored : Option (Nat × Value) := none
  retVal : Option Value := none
  ip : Nat

/-- Temps are written one after the other. -/
def writeTemps (temps : Nat → Option Value) (writes : List (Nat × Value)) : Nat → Option Value :=
  writes.foldl (fun temps p => Function.update temps p.1 (some p.2)) temps

/-- A local is stored. -/
def storeLocal (locals : List Value) : Option (Nat × Value) → List Value
  | some (n, v) => locals.set n v
  | none => locals

def Activation.apply (c : Change) (f : Activation) : Activation :=
  { f with
    temps := writeTemps f.temps c.temps
    locals := storeLocal f.locals c.stored
    retVal := c.retVal.getD f.retVal
    ip := c.ip }

/-- The place after an instruction. -/
def Instruction.Reaches (i : Instruction) (f : Activation) (ip : Nat) : Prop :=
  i.falls = true ∧ ip = f.ip + 1 ∨ ∃ l, i.target? = some l ∧ ip = position f.code l

/-- A change that instruction `i` can make. -/
structure Change.Fits (c : Change) (i : Instruction) (f : Activation) : Prop where
  temps : c.temps.map Prod.fst = i.dests
  stored : c.stored.map Prod.fst = i.stored?
  reaches : i.Reaches f c.ip

/-- The activation with other code, locals and temps. -/
def Activation.alter (code : List Instruction) (locals : List Value)
    (temps : Nat → Option Value) (f : Activation) : Activation :=
  { f with code := code, locals := locals, temps := temps }

/-- `g` is `f` with other code, and with other locals and temps where `i` does
not look. -/
structure Alike (i : Instruction) (f g : Activation) : Prop where
  rest : g = f.alter g.code g.locals g.temps
  length : g.locals.length = f.locals.length
  loaded : ∀ dest n, i = .assign dest (.var n) → g.locals[n]? = f.locals[n]?
  temps : ∀ t ∈ i.reads, g.temps t = f.temps t
  target : ∀ l, i.target? = some l → position g.code l = position f.code l

theorem Alike.refl (i : Instruction) (f : Activation) : Alike i f f :=
  ⟨rfl, rfl, fun _ _ _ => rfl, fun _ _ => rfl, fun _ _ => rfl⟩

/-- The moves of two activations at the same instruction. -/
inductive SameMove (i : Instruction) (f g : Activation) :
    Move (Activation × World) Event (Request × World) (Value × World) (Option Value × World) →
    Move (Activation × World) Event (Request × World) (Value × World) (Option Value × World) →
    Prop
  | step {es : List Event} {c : Change} {w : World} : c.Fits i f →
      SameMove i f g (.step es (f.apply c, w)) (.step es (g.apply c, w))
  | call {closure : Nat} {args : List Nat} {function : Value} {arguments : List Value} {w : World} :
      i = .call closure args →
      SameMove i f g
        (.ask (.call function arguments, w) fun a => ({ f.advance with retVal := a.1 }, a.2))
        (.ask (.call function arguments, w) fun a => ({ g.advance with retVal := a.1 }, a.2))
  | collect {args : List Nat} {w : World} : i = .callHelper .garbageCollect args →
      SameMove i f g
        (.ask (.collect f.locals f.references [], w) fun a => (f.advance, a.2))
        (.ask (.collect g.locals g.references [], w) fun a => (g.advance, a.2))
  | stop {r : Option Value × World} : SameMove i f g (.stop r) (.stop r)

namespace ChangesLemmas

/-- No failure is a bad one. -/
abbrev Same {α β : Type} (R : α → β → Prop) (x : Except Stop α) (y : Except Stop β) : Prop :=
  Agree (fun _ => False) R x y

theorem same_self {α : Type} (x : Except Stop α) : Same (fun a b => a = b ∧ x = .ok a) x x :=
  Agree.self fun _ _ => id

theorem read_same {f g : Activation} {t : Nat} (h : g.temps t = f.temps t) :
    g.read t = f.read t := by
  unfold Activation.read
  rw [h]

theorem mapM_read_same {f g : Activation} {l : List Nat}
    (h : ∀ t ∈ l, g.temps t = f.temps t) : l.mapM g.read = l.mapM f.read := by
  induction l with
  | nil => rfl
  | cons t l ih =>
    rw [List.mapM_cons, List.mapM_cons, read_same (h t (List.mem_cons_self ..)),
      ih fun t ht => h t (List.mem_cons_of_mem _ ht)]

section Families

variable {i : Instruction} {f : Activation} {code : List Instruction} {locals : List Value}
  {temps : Nat → Option Value} {w : World} {α : Type}

theorem reaches_next (h : i.falls = true) : i.Reaches f (f.ip + 1) :=
  .inl ⟨h, rfl⟩

/-- A step that shows nothing. -/
theorem silent_same {c : Change} (h : c.Fits i f) :
    Same (SameMove i f (f.alter code locals temps)) ((f.apply c).silent w)
      (((f.alter code locals temps).apply c).silent w) :=
  .ok (.step h)

/-- A new temp, computed without an action. -/
theorem assign_same {dest : Nat} (hd : i.dests = [dest]) (hs : i.stored? = none)
    (hf : i.falls = true) {x y : Except Stop α} (val : α → Value) (hxy : y = x) :
    Same (SameMove i f (f.alter code locals temps))
      (x >>= fun a => (f.advance.setTemp dest (val a)).silent w)
      (y >>= fun a => ((f.alter code locals temps).advance.setTemp dest (val a)).silent w) := by
  subst hxy
  refine (same_self y).bind fun a a' ⟨ha, _⟩ => ?_
  subst ha
  exact silent_same (c := { temps := [(dest, val a)], ip := f.ip + 1 })
    ⟨hd.symm, hs.symm, reaches_next hf⟩

/-- An action whose result goes to a temp. -/
theorem load_same {dest : Nat} (hd : i.dests = [dest]) (hs : i.stored? = none)
    (hf : i.falls = true) (a : Action) :
    Same (SameMove i f (f.alter code locals temps)) (f.load a dest w)
      ((f.alter code locals temps).load a dest w) := by
  unfold Activation.load
  refine (same_self _).bind fun r r' ⟨hr, _⟩ => ?_
  subst hr
  exact .ok (.step (c := { temps := [(dest, r.1)], ip := f.ip + 1 })
    ⟨hd.symm, hs.symm, reaches_next hf⟩)

theorem help_same (hd : i.dests = []) (hs : i.stored? = none) (hf : i.falls = true)
    (a : Action) :
    Same (SameMove i f (f.alter code locals temps)) (f.help a w)
      ((f.alter code locals temps).help a w) := by
  unfold Activation.help
  refine (same_self _).bind fun r r' ⟨hr, _⟩ => ?_
  subst hr
  exact .ok (.step (c := { retVal := some r.1, ip := f.ip + 1 })
    ⟨hd.symm, hs.symm, reaches_next hf⟩)

theorem act_same (hd : i.dests = []) (hs : i.stored? = none) (hf : i.falls = true)
    (a : Action) :
    Same (SameMove i f (f.alter code locals temps)) (f.act a w)
      ((f.alter code locals temps).act a w) := by
  unfold Activation.act
  refine (same_self _).bind fun r r' ⟨hr, _⟩ => ?_
  subst hr
  exact .ok (.step (c := { ip := f.ip + 1 }) ⟨hd.symm, hs.symm, reaches_next hf⟩)

/-- A step that only moves on. -/
theorem advance_same (hd : i.dests = []) (hs : i.stored? = none) (hf : i.falls = true) :
    Same (SameMove i f (f.alter code locals temps)) (f.advance.silent w)
      ((f.alter code locals temps).advance.silent w) :=
  silent_same (c := { ip := f.ip + 1 }) ⟨hd.symm, hs.symm, reaches_next hf⟩

/-- A step that jumps. -/
theorem jump_same (hd : i.dests = []) (hs : i.stored? = none) {l : Nat}
    (ht : i.target? = some l) (hp : position code l = position f.code l) :
    Same (SameMove i f (f.alter code locals temps))
      (({ f with ip := position f.code l } : Activation).silent w)
      (({ f.alter code locals temps with ip := position code l } : Activation).silent w) := by
  rw [hp]
  exact silent_same (c := { ip := position f.code l })
    ⟨hd.symm, hs.symm, .inr ⟨l, ht, rfl⟩⟩

/-! ### The instructions with several forms -/

theorem assign_agrees (dest : Nat) (src : Source)
    (hloaded : ∀ n, src = .var n → locals[n]? = f.locals[n]?) :
    Same (SameMove (.assign dest src) f (f.alter code locals temps))
      (f.exec (.assign dest src) w) ((f.alter code locals temps).exec (.assign dest src) w) := by
  cases src with
  | var n =>
    refine assign_same rfl rfl rfl id ?_
    unfold rawIndex
    rw [show (f.alter code locals temps).locals[n]? = f.locals[n]? from hloaded n rfl]
  | const v => exact assign_same rfl rfl rfl (x := .ok v) id rfl
  | retVal => exact assign_same rfl rfl rfl (x := .ok f.retVal) id rfl
  | ref n => exact assign_same rfl rfl rfl Value.pointer rfl
  | deref n =>
    refine (same_self _).bind fun r r' ⟨hr, _⟩ => ?_
    subst hr
    exact load_same rfl rfl rfl _
  | glob n =>
    refine (same_self _).bind fun r r' ⟨hr, _⟩ => ?_
    subst hr
    exact load_same rfl rfl rfl _
  | function n => exact load_same rfl rfl rfl _

theorem store_agrees (dest : Target) (src : Nat) (hlength : locals.length = f.locals.length)
    (hread : (f.alter code locals temps).read src = f.read src) :
    Same (SameMove (.store dest src) f (f.alter code locals temps))
      (f.exec (.store dest src) w) ((f.alter code locals temps).exec (.store dest src) w) := by
  simp only [Activation.exec, hread]
  refine (same_self _).bind fun v v' ⟨hv, _⟩ => ?_
  subst hv
  cases dest with
  | var n =>
    show Same _ (if n < f.locals.length then _ else _) (if n < locals.length then _ else _)
    rw [hlength]
    split
    · exact .ok (.step (c := { stored := some (n, v), ip := f.ip + 1 })
        ⟨rfl, rfl, reaches_next rfl⟩)
    · exact .error id
  | deref n =>
    refine (same_self _).bind fun r r' ⟨hr, _⟩ => ?_
    subst hr
    exact act_same rfl rfl rfl _
  | glob n =>
    refine (same_self _).bind fun r r' ⟨hr, _⟩ => ?_
    subst hr
    exact act_same rfl rfl rfl _

theorem helper_agrees (h : Helper) (args : List Nat)
    (hargs : args.mapM (f.alter code locals temps).read = args.mapM f.read) :
    Same (SameMove (.callHelper h args) f (f.alter code locals temps))
      (f.exec (.callHelper h args) w)
      ((f.alter code locals temps).exec (.callHelper h args) w) := by
  simp only [Activation.exec, hargs]
  refine (same_self _).bind fun vs vs' ⟨hvs, _⟩ => ?_
  subst hvs
  have action (hf : (Instruction.callHelper h args).falls = true) :
      Same (SameMove (.callHelper h args) f (f.alter code locals temps))
        (f.helperAction h vs >>= fun a =>
          if Activation.Helper.hasResult h then f.help a w else f.act a w)
        ((f.alter code locals temps).helperAction h vs >>= fun a =>
          if Activation.Helper.hasResult h then (f.alter code locals temps).help a w
          else (f.alter code locals temps).act a w) := by
    refine (same_self (f.helperAction h vs)).bind fun a a' ⟨ha, _⟩ => ?_
    subst ha
    split
    · exact help_same rfl rfl hf _
    · exact act_same rfl rfl hf _
  cases h with
  | garbageCollect => exact .ok (.collect rfl)
  | throwUninitialized n =>
    refine (same_self _).bind fun x x' ⟨hx, _⟩ => ?_
    subst hx
    exact .error id
  | _ => exact action rfl

end Families

end ChangesLemmas

open ChangesLemmas

/-- Where an instruction looks at the same things in two activations, it fails
alike in both or makes the same move. -/
theorem exec_agrees {i : Instruction} {f g : Activation} (h : Alike i f g) (w : World) :
    Same (SameMove i f g) (f.exec i w) (g.exec i w) := by
  obtain ⟨hrest, hlength, hloaded, htemps, htarget⟩ := h
  rw [hrest] at hlength hloaded htemps htarget ⊢
  generalize g.code = code, g.locals = locals, g.temps = temps at hlength hloaded htemps htarget ⊢
  -- the two activations agree on the temps that `i` reads
  have read {t : Nat} (ht : t ∈ i.reads) :
      (f.alter code locals temps).read t = f.read t := read_same (htemps t ht)
  cases i with
  | assign dest src =>
    exact assign_agrees dest src fun n hn => hloaded dest n (congrArg (Instruction.assign dest) hn)
  | forceLoad n => exact advance_same rfl rfl rfl
  | store dest src => exact store_agrees dest src hlength (read (List.mem_singleton_self src))
  | binOp op dest src1 src2 =>
    simp only [Activation.exec, read (t := src1) (by simp [Instruction.reads]),
      read (t := src2) (by simp [Instruction.reads])]
    refine (same_self _).bind fun v1 v1' ⟨h1, _⟩ => ?_
    refine (same_self _).bind fun v2 v2' ⟨h2, _⟩ => ?_
    subst h1 h2
    generalize (if op.leftFirst = true then (v1, v2) else (v2, v1)) = operands
    cases op with
    | add => exact load_same rfl rfl rfl _
    | eq => exact load_same rfl rfl rfl _
    | _ => exact assign_same rfl rfl rfl id rfl
  | unOp op dest src =>
    simp only [Activation.exec, read (List.mem_singleton_self src)]
    refine (same_self _).bind fun v v' ⟨hv, _⟩ => ?_
    subst hv
    exact assign_same rfl rfl rfl id rfl
  | call closure args =>
    have hargs : args.mapM (f.alter code locals temps).read = args.mapM f.read :=
      mapM_read_same fun t ht => htemps t (by simp [Instruction.reads, ht])
    simp only [Activation.exec, read (t := closure) (by simp [Instruction.reads]), hargs]
    refine (same_self _).bind fun v v' ⟨hv, _⟩ => ?_
    refine (same_self _).bind fun vs vs' ⟨hvs, _⟩ => ?_
    subst hv hvs
    exact .ok (.call rfl)
  | allocClosure function refs =>
    have hrefs : refs.mapM (f.alter code locals temps).read = refs.mapM f.read :=
      mapM_read_same fun t ht => htemps t (by simp [Instruction.reads, ht])
    simp only [Activation.exec, read (t := function) (by simp [Instruction.reads]), hrefs]
    refine (same_self _).bind fun v v' ⟨hv, _⟩ => ?_
    refine (same_self _).bind fun vs vs' ⟨hvs, _⟩ => ?_
    subst hv hvs
    exact help_same rfl rfl rfl _
  | ret val =>
    simp only [Activation.exec, read (List.mem_singleton_self val)]
    refine (same_self _).bind fun v v' ⟨hv, _⟩ => ?_
    subst hv
    exact .ok .stop
  | outputLabel l =>
    exact .ok (.step (c := { ip := f.ip + 1 }) ⟨rfl, rfl, reaches_next rfl⟩)
  | jump l => exact jump_same rfl rfl rfl (htarget l rfl)
  | shortJump l => exact jump_same rfl rfl rfl (htarget l rfl)
  | condJump cond l =>
    simp only [Activation.exec, read (List.mem_singleton_self cond)]
    refine (same_self _).bind fun v v' ⟨hv, _⟩ => ?_
    subst hv
    split
    · exact jump_same rfl rfl rfl (htarget l rfl)
    · exact advance_same rfl rfl rfl
  | callHelper h args => exact helper_agrees h args (mapM_read_same htemps)
  | callAssert a arg =>
    simp only [Activation.exec, read (List.mem_singleton_self arg)]
    refine (same_self _).bind fun v v' ⟨hv, _⟩ => ?_
    subst hv
    refine (same_self _).bind fun u u' _ => ?_
    exact advance_same rfl rfl rfl
  | noop => exact advance_same rfl rfl rfl
  | fork src dest1 dest2 =>
    simp only [Activation.exec, read (List.mem_singleton_self src)]
    refine (same_self _).bind fun v v' ⟨hv, _⟩ => ?_
    subst hv
    exact silent_same (c := { temps := [(dest1, v), (dest2, v)], ip := f.ip + 1 })
      ⟨rfl, rfl, reaches_next rfl⟩

end Beaverc.Ir
