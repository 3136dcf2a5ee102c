import Mathlib.Data.List.Nodup
import Beaverc.Base.X64

/-!
# The frame of a compiled function

`preamble` and `postamble` of `ASM::Compiler`, and the cells of the frame that
compiled code addresses. The preamble saves the registers of the caller just under
`rbp`, where the slots for the closure, the references and the first temps are,
and the postamble pops from the other end of the frame.
-/

namespace Beaverc.Asm
open X64

def reservedStackSpace : Nat := 4
def stackValueSize : Nat := 8

/-! ## Slots, as displacements from `rbp` -/

def currentClosure : BitVec 32 := BitVec.ofInt 32 (-1 * stackValueSize)

def currentRefs : BitVec 32 := BitVec.ofInt 32 (-3 * stackValueSize)

def tempMem (i : Nat) : BitVec 32 :=
  BitVec.ofInt 32 (-(i + reservedStackSpace) * stackValueSize)

/-- `current_locals_reg`. -/
def currentLocalsReg : Reg := .rbx

/-- The cells that the code of a function with `numTemps` temps uses. -/
def frameSlots (numTemps : Nat) : List (BitVec 32) :=
  currentClosure :: currentRefs :: (List.range numTemps).map tempMem

/-- The bytes between the saved registers and the stack pointer. -/
def frameSize (numTemps : Nat) : BitVec 32 :=
  BitVec.ofNat 32 ((numTemps + reservedStackSpace) * stackValueSize)

/-! ## Code -/

/-- The registers that a function has to preserve. -/
def preserved : List Reg :=
  [.rbx, .rbp, .r12, .r13, .r14, .r15, .rsp]

/-- The registers that `preamble` pushes, and where. -/
def saved : List (Reg × BitVec 32) :=
  [(.rbp, 0), (.rbx, -8), (.r12, -16), (.r13, -24), (.r14, -32), (.r15, -40)]

def preambleSaves : List Instr :=
  [.push .rbp, .mov .rbp .rsp, .push .rbx, .push .r12, .push .r13, .push .r14, .push .r15]

def preamble (numTemps : Nat) : List Instr :=
  preambleSaves ++ [.subImm .rsp (frameSize numTemps), .store .rbp currentClosure .rdi,
    .mov currentLocalsReg .rsi, .store .rbp currentRefs .rdx]

/-- The code in front of `ret`. -/
def postamble (retval : Reg) : List Instr :=
  [.mov .rax retval, .pop .r15, .pop .r14, .pop .r13, .pop .r12, .pop .rbx, .leave]

/-! ## Bodies -/

/-- What a balanced body does: the stack and frame pointers are back, and of the
cells between them only those of temps are written. -/
structure Balanced (numTemps : Nat) (m m' : Machine) : Prop where
  rsp : m'.regs .rsp = m.regs .rsp
  rbp : m'.regs .rbp = m.regs .rbp
  keeps : ∀ a, m.regs .rsp ≤ a → a ≤ m.regs .rbp →
    (∀ i < numTemps, a ≠ m.address .rbp (tempMem i)) → m'.mem a = m.mem a

/-- Whatever the body, the registers of the caller come back. -/
def Preserves (numTemps : Nat) : Prop :=
  ∀ retval m m₁ m₂ m₃, exec (preamble numTemps) m = some m₁ → Balanced numTemps m₁ m₂ →
    exec (postamble retval) m₂ = some m₃ → ∀ r ∈ preserved, m₃.regs r = m.regs r

/-- The frame as it should be: no two slots meet, no slot is where a register is
saved, and all of them are above the stack pointer. -/
structure LaidOut (numTemps : Nat) : Prop where
  distinct : (frameSlots numTemps).Nodup
  disjoint : ∀ d ∈ frameSlots numTemps, ∀ p ∈ saved, d ≠ p.2
  above : ∀ d ∈ frameSlots numTemps, -40 - (frameSize numTemps).toInt ≤ d.toInt

namespace CallingConventionLemmas

/-- The cell at a displacement from `base`. -/
abbrev cell (base : Word) (d : BitVec 32) : Word :=
  base + d.signExtend 64

/-- Writes, the first one first. -/
def writes (ws : List (Word × Word)) (mem : Word → Word) : Word → Word :=
  ws.foldl (fun mem w => Function.update mem w.1 w.2) mem

theorem writes_other {ws : List (Word × Word)} {a : Word} (h : ∀ w ∈ ws, w.1 ≠ a)
    (mem : Word → Word) : writes ws mem a = mem a := by
  induction ws generalizing mem with
  | nil => rfl
  | cons w ws ih =>
    show writes ws (Function.update mem w.1 w.2) a = mem a
    rw [ih fun w' hw' => h w' (List.mem_cons_of_mem _ hw'),
      Function.update_of_ne (h w List.mem_cons_self).symm]

theorem writes_mem {ws : List (Word × Word)} (hnodup : (ws.map Prod.fst).Nodup) {w : Word × Word}
    (h : w ∈ ws) (mem : Word → Word) : writes ws mem w.1 = w.2 := by
  induction ws generalizing mem with
  | nil => exact nomatch h
  | cons w' ws ih =>
    obtain ⟨hnot, hnodup'⟩ := List.nodup_cons.mp hnodup
    show writes ws (Function.update mem w'.1 w'.2) w.1 = w.2
    rcases List.mem_cons.mp h with rfl | h
    · rw [writes_other, Function.update_self]
      exact fun v hv heq => hnot (heq ▸ List.mem_map_of_mem hv)
    · exact ih hnodup' h _

/-- Writes of zero keep a zero. -/
theorem writes_zero {ws : List (Word × Word)} {a : Word} (h : ∀ w ∈ ws, w.1 = a → w.2 = 0)
    {mem : Word → Word} (hmem : mem a = 0) : writes ws mem a = 0 := by
  induction ws generalizing mem with
  | nil => exact hmem
  | cons w ws ih =>
    refine ih (fun w' hw' => h w' (List.mem_cons_of_mem _ hw')) ?_
    show Function.update mem w.1 w.2 a = 0
    by_cases heq : w.1 = a
    · rw [← heq, Function.update_self]
      exact h w List.mem_cons_self heq
    · rw [Function.update_of_ne (Ne.symm heq)]
      exact hmem

/-- What the preamble pushes, from the frame pointer on. -/
def pushed (m : Machine) : List (Word × Word) :=
  saved.map fun p => (cell (m.regs .rsp - 8) p.2, m.regs p.1)

theorem cells_nodup (base : Word) {ds : List (BitVec 32)}
    (h : (ds.map (·.signExtend 64) : List Word).Nodup) : (ds.map (cell base)).Nodup := by
  have hmap : ds.map (cell base) = (ds.map (·.signExtend 64)).map (base + ·) := by
    rw [List.map_map]
    rfl
  rw [hmap]
  exact h.map fun _ _ heq => (BitVec.add_right_inj base).mp heq

/-- Each register is where `saved` has it. -/
theorem pushed_saved (m : Machine) {p : Reg × BitVec 32} (hp : p ∈ saved) (mem : Word → Word) :
    writes (pushed m) mem (cell (m.regs .rsp - 8) p.2) = m.regs p.1 := by
  have hmem : (cell (m.regs .rsp - 8) p.2, m.regs p.1) ∈ pushed m :=
    List.mem_map.mpr ⟨p, hp, rfl⟩
  have hkeys : (pushed m).map Prod.fst = (saved.map Prod.snd).map (cell (m.regs .rsp - 8)) := by
    unfold pushed
    rw [List.map_map, List.map_map]
    rfl
  have hnodup : ((pushed m).map Prod.fst).Nodup := by
    rw [hkeys]
    exact cells_nodup _ (by decide)
  exact writes_mem hnodup hmem mem

theorem cell_down {base : Word} {d e : BitVec 32}
    (h : d.signExtend 64 + -(8 : Word) = e.signExtend 64) : cell base d - 8 = cell base e := by
  show base + d.signExtend 64 - 8 = base + e.signExtend 64
  rw [BitVec.sub_eq_add_neg, BitVec.add_assoc, h]

theorem cell_zero (base : Word) : cell base 0 = base := by
  show base + BitVec.signExtend 64 (0 : BitVec 32) = base
  rw [show BitVec.signExtend 64 (0 : BitVec 32) = (0 : Word) by decide]
  exact BitVec.add_zero base

/-- The cells that the pushes count down to. -/
theorem pushed_eq (m : Machine) : pushed m =
    [(m.regs .rsp - 8, m.regs .rbp), (m.regs .rsp - 8 - 8, m.regs .rbx),
      (m.regs .rsp - 8 - 8 - 8, m.regs .r12), (m.regs .rsp - 8 - 8 - 8 - 8, m.regs .r13),
      (m.regs .rsp - 8 - 8 - 8 - 8 - 8, m.regs .r14),
      (m.regs .rsp - 8 - 8 - 8 - 8 - 8 - 8, m.regs .r15)] := by
  generalize hbase : m.regs .rsp - 8 = base
  have h0 := cell_zero base
  have h1 : base - 8 = cell base (-8) := by
    conv_lhs => rw [← h0]
    exact cell_down (by decide)
  have h2 : base - 8 - 8 = cell base (-16) := by
    rw [h1]
    exact cell_down (by decide)
  have h3 : base - 8 - 8 - 8 = cell base (-24) := by
    rw [h2]
    exact cell_down (by decide)
  have h4 : base - 8 - 8 - 8 - 8 = cell base (-32) := by
    rw [h3]
    exact cell_down (by decide)
  have h5 : base - 8 - 8 - 8 - 8 - 8 = cell base (-40) := by
    rw [h4]
    exact cell_down (by decide)
  rw [h5, h4, h3, h2, h1]
  simp only [pushed, saved, List.map_cons, List.map_nil, hbase, h0]

theorem exec_saves (m : Machine) : ∃ m₀, exec preambleSaves m = some m₀ ∧
    m₀.regs .rbp = m.regs .rsp - 8 ∧ m₀.regs .rsp = m.regs .rsp - 8 - 8 - 8 - 8 - 8 - 8 ∧
    m₀.regs .rdi = m.regs .rdi ∧ m₀.regs .rdx = m.regs .rdx ∧
    m₀.mem = writes (pushed m) m.mem := by
  obtain ⟨m₀, h₀⟩ : ∃ m₀, exec preambleSaves m = some m₀ := ⟨_, rfl⟩
  refine ⟨m₀, h₀, ?_⟩
  simp only [preambleSaves, exec, Instr.exec, Option.bind_some, Option.some.injEq] at h₀
  subst h₀
  simp [Machine.pushWord, Machine.write, Machine.set, pushed_eq, writes]

theorem exec_enter (size closure refs : BitVec 32) (m : Machine) :
    ∃ m₁, exec [.subImm .rsp size, .store .rbp closure .rdi, .mov currentLocalsReg .rsi,
        .store .rbp refs .rdx] m = some m₁ ∧
      m₁.regs .rbp = m.regs .rbp ∧ m₁.regs .rsp = m.regs .rsp - size.signExtend 64 ∧
      m₁.mem = Function.update (Function.update m.mem (m.regs .rbp + closure.signExtend 64)
        (m.regs .rdi)) (m.regs .rbp + refs.signExtend 64) (m.regs .rdx) := by
  refine ⟨((((m.result .rsp (m.regs .rsp - size.signExtend 64)).write
    (m.regs .rbp + closure.signExtend 64) (m.regs .rdi)).set .rbx (m.regs .rsi)).write
    (m.regs .rbp + refs.signExtend 64) (m.regs .rdx)), ?_, rfl, rfl, rfl⟩
  simp [exec, Instr.exec, Machine.address, currentLocalsReg]

/-- What the preamble leaves. -/
theorem exec_preamble (n : Nat) (m : Machine) : ∃ m₁, exec (preamble n) m = some m₁ ∧
    m₁.regs .rbp = m.regs .rsp - 8 ∧
    m₁.regs .rsp = m.regs .rsp - 8 - 8 - 8 - 8 - 8 - 8 - (frameSize n).signExtend 64 ∧
    m₁.mem = Function.update (Function.update (writes (pushed m) m.mem)
      (cell (m.regs .rsp - 8) currentClosure) (m.regs .rdi))
      (cell (m.regs .rsp - 8) currentRefs) (m.regs .rdx) := by
  obtain ⟨m₀, h₀, hrbp, hrsp, hrdi, hrdx, hmem⟩ := exec_saves m
  obtain ⟨m₁, h₁, hrbp', hrsp', hmem'⟩ := exec_enter (frameSize n) currentClosure currentRefs m₀
  refine ⟨m₁, ?_, hrbp'.trans hrbp, ?_, ?_⟩
  · unfold preamble
    rw [exec_append, h₀, Option.bind_some]
    exact h₁
  · rw [hrsp', hrsp]
  · rw [hmem', hmem, hrbp, hrdi, hrdx]

/-- The registers of a caller that has something in `rbx` only. -/
def caller : Machine where
  regs r := if r = .rbx then 1 else if r = .rsp then 0x7FFFFFFF0000 else 0
  mem _ := 0
  flags := none

/-- The closure is stored over the saved `rbx`: no cell keeps its value. -/
theorem caller_forgotten {n : Nat} {m₁ : Machine} (h : exec (preamble n) caller = some m₁)
    (a : Word) : m₁.mem a = 0 := by
  obtain ⟨m₁, h', -, -, hmem⟩ := exec_preamble n caller
  obtain rfl := Option.some.inj (h'.symm.trans h)
  have hpushed : ∀ x, x ≠ cell (caller.regs .rsp - 8) currentClosure →
      writes (pushed caller) caller.mem x = 0 := by
    intro x hx
    refine writes_zero (fun w hw heq => ?_) rfl
    obtain ⟨p, hp, rfl⟩ := List.mem_map.mp hw
    simp only [saved, List.mem_cons, List.not_mem_nil, or_false] at hp
    rcases hp with rfl | rfl | rfl | rfl | rfl | rfl
    · rfl
    · exact absurd heq.symm hx
    · rfl
    · rfl
    · rfl
    · rfl
  rw [hmem]
  by_cases hrefs : a = cell (caller.regs .rsp - 8) currentRefs
  · rw [hrefs, Function.update_self]
    rfl
  · rw [Function.update_of_ne hrefs]
    by_cases hclosure : a = cell (caller.regs .rsp - 8) currentClosure
    · rw [hclosure, Function.update_self]
      rfl
    · rw [Function.update_of_ne hclosure]
      exact hpushed a hclosure

/-- The postamble takes each register from a cell of the frame. -/
theorem exec_postamble (retval : Reg) (m : Machine) : ∃ m', exec (postamble retval) m = some m' ∧
    m'.regs .rbx = m.mem (m.regs .rsp + 8 + 8 + 8 + 8) ∧
    m'.regs .rbp = m.mem (m.regs .rbp) ∧ m'.regs .rsp = m.regs .rbp + 8 :=
  ⟨_, rfl, rfl, rfl, rfl⟩

/-- A body that does nothing is balanced. -/
theorem balanced_refl (n : Nat) (m : Machine) : Balanced n m m :=
  ⟨rfl, rfl, fun _ _ _ _ => rfl⟩

/-- `rbx` does not come back. -/
theorem not_preserves (n : Nat) : ¬ Preserves n := by
  intro h
  obtain ⟨m₁, h₁, -⟩ := exec_preamble n caller
  obtain ⟨m₃, h₃, hrbx, -⟩ := exec_postamble .rax m₁
  have hback := h .rax caller m₁ m₁ m₃ h₁ (balanced_refl n m₁) h₃ .rbx (by decide)
  rw [hrbx, caller_forgotten h₁] at hback
  exact absurd hback (by decide)

end CallingConventionLemmas

open CallingConventionLemmas

/-- For every number of temps the caller's registers can be lost, and the frame
has the closure in the cell where `rbx` is saved. -/
theorem frame_never_respected (n : Nat) :
    ¬ Preserves n ∧ ¬ ∀ d ∈ frameSlots n, ∀ p ∈ saved, d ≠ p.2 :=
  ⟨not_preserves n, fun h => h currentClosure List.mem_cons_self (.rbx, -8) (by decide) (by decide)⟩

/-- A function without temps loses `rbx`, and its references are stored over `r13`. -/
theorem frame_broken_empty : ¬ (Preserves 0 ∧ LaidOut 0) := fun h =>
  h.2.disjoint currentRefs (by decide) (.r13, -24) (by decide) (by decide)

end Beaverc.Asm
