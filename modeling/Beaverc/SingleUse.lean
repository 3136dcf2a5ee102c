import Beaverc.Passes
import Beaverc.Translation

/-!
# The temps of emitted code

`IR::Compiler::compile` numbers its temps in the order in which they are written
and keeps those that are still to be used on its stack. Each instruction takes
its temps from there, so that none is used twice, a `CallAssert` apart, which
looks at a temp that the instruction behind it uses. At a label the stack is
empty: a temp is used on the same straight piece of code that writes it.
-/

namespace Beaverc.Ir

/-! ## Reads and writes -/

def Instruction.isAssert : Instruction → Bool
  | .callAssert .. => true
  | _ => false

def Instruction.isLabel : Instruction → Bool
  | .outputLabel _ => true
  | _ => false

/-- The temps an instruction takes: those it reads, if it is no `CallAssert`. -/
def Instruction.uses (i : Instruction) : List Nat :=
  if i.isAssert then [] else i.reads

/-- The temps the code takes. -/
def uses (code : List Instruction) : List Nat :=
  code.flatMap Instruction.uses

/-- The temps the code writes. -/
def dests (code : List Instruction) : List Nat :=
  code.flatMap Instruction.dests

/-- The temps written since the last label, those in `before` included. -/
def written (before : List Nat) : List Instruction → List Nat
  | [] => before
  | i :: rest => written (if i.isLabel then [] else i.dests ++ before) rest

/-- What is read has been written since the last label, or is in `before`. -/
def Scoped (before : List Nat) : List Instruction → Prop
  | [] => True
  | i :: rest =>
    (∀ t ∈ i.reads, t ∈ before) ∧ Scoped (if i.isLabel then [] else i.dests ++ before) rest

namespace SingleUseLemmas

theorem uses_append (a b : List Instruction) : uses (a ++ b) = uses a ++ uses b :=
  List.flatMap_append

theorem dests_append (a b : List Instruction) : dests (a ++ b) = dests a ++ dests b :=
  List.flatMap_append

theorem written_append (before : List Nat) (a b : List Instruction) :
    written before (a ++ b) = written (written before a) b := by
  induction a generalizing before with
  | nil => rfl
  | cons i a ih => exact ih _

theorem scoped_append (before : List Nat) (a b : List Instruction) :
    Scoped before (a ++ b) ↔ Scoped before a ∧ Scoped (written before a) b := by
  induction a generalizing before with
  | nil => exact ⟨fun h => ⟨trivial, h⟩, And.right⟩
  | cons i a ih =>
    rw [List.cons_append, Scoped, Scoped, ih, and_assoc]
    rfl

theorem uses_subset_reads (i : Instruction) : ∀ t ∈ i.uses, t ∈ i.reads := by
  intro t ht
  unfold Instruction.uses at ht
  split at ht
  · cases ht
  · exact ht

/-- Code without labels adds what it writes. -/
theorem mem_written {before : List Nat} {code : List Instruction}
    (h : ∀ i ∈ code, i.isLabel = false) {t : Nat} :
    t ∈ written before code ↔ t ∈ dests code ∨ t ∈ before := by
  induction code generalizing before with
  | nil => simp [written, dests]
  | cons i code ih =>
    rw [written, h i (List.mem_cons_self ..), if_neg (by simp),
      ih fun j hj => h j (List.mem_cons_of_mem _ hj), dests, dests, List.flatMap_cons,
      List.mem_append, List.mem_append]
    exact or_left_comm.trans or_assoc.symm

end SingleUseLemmas

open SingleUseLemmas TranslationLemmas

/-! ## One instruction -/

/-- What an emission does with the stack of temps: the temps it uses and those it
leaves are all different; it uses temps of the stack, after they have been
written, and leaves temps of the stack and new ones, which it writes in order. -/
structure Emission.Linear (i : Beaverc.Instruction) (stack : List Nat) (n : Nat) (e : Emission) :
    Prop where
  nodup : (uses e.code ++ e.stack).Nodup
  used : ∀ t ∈ uses e.code, t ∈ stack
  left : ∀ t ∈ e.stack, t ∈ stack ∨ n ≤ t ∧ t < e.temps
  le : n ≤ e.temps
  writes : dests e.code = List.range' n (e.temps - n)
  inScope : ∀ before, (∀ t ∈ stack, t ∈ before) → Scoped before e.code
  labels : ∀ j ∈ e.code, j.isLabel = true → ∃ l, i = .label l

namespace SingleUseLemmas

/-- A new temp is pushed. -/
theorem linear_push {i : Beaverc.Instruction} {stack : List Nat} (rest : List Nat) {n : Nat}
    {code : List Instruction} (hn : ∀ t ∈ stack, t < n) (hnodup : (uses code ++ rest).Nodup)
    (hused : ∀ t ∈ uses code, t ∈ stack) (hrest : ∀ t ∈ rest, t ∈ stack) (hd : dests code = [n])
    (hs : ∀ before, (∀ t ∈ stack, t ∈ before) → Scoped before code)
    (hl : ∀ j ∈ code, j.isLabel = false) : Emission.Linear i stack n ⟨code, n :: rest, n + 1⟩ := by
  refine ⟨?_, hused, fun t ht => ?_, Nat.le_succ n, ?_, hs, fun j hj h => ?_⟩
  · have hnew : n ∉ uses code ++ rest := fun h => by
      rcases List.mem_append.mp h with h | h
      · exact absurd (hn n (hused n h)) (Nat.lt_irrefl n)
      · exact absurd (hn n (hrest n h)) (Nat.lt_irrefl n)
    exact List.nodup_middle.mpr (List.nodup_cons.mpr ⟨hnew, hnodup⟩)
  · rcases List.mem_cons.mp ht with rfl | ht
    · exact .inr ⟨Nat.le_refl _, Nat.lt_succ_self _⟩
    · exact .inl (hrest t ht)
  · rw [hd, Nat.add_sub_cancel_left]
    rfl
  · rw [hl j hj] at h
    cases h

/-- Temps are only taken. -/
theorem linear_rest {i : Beaverc.Instruction} {stack : List Nat} (rest : List Nat) {n : Nat}
    {code : List Instruction} (hnodup : (uses code ++ rest).Nodup)
    (hused : ∀ t ∈ uses code, t ∈ stack) (hrest : ∀ t ∈ rest, t ∈ stack) (hd : dests code = [])
    (hs : ∀ before, (∀ t ∈ stack, t ∈ before) → Scoped before code)
    (hl : ∀ j ∈ code, j.isLabel = true → ∃ l, i = .label l) :
    Emission.Linear i stack n ⟨code, rest, n⟩ := by
  refine ⟨hnodup, hused, fun t ht => .inl (hrest t ht), Nat.le_refl n, ?_, hs, hl⟩
  rw [hd, Nat.sub_self]
  rfl

/-- Code without labels that reads what is there. -/
theorem scoped_of_reads {before : List Nat} {code : List Instruction}
    (hr : ∀ j ∈ code, ∀ t ∈ j.reads, t ∈ before) (hl : ∀ j ∈ code, j.isLabel = false) :
    Scoped before code := by
  induction code generalizing before with
  | nil => trivial
  | cons i code ih =>
    refine ⟨hr i List.mem_cons_self, ?_⟩
    rw [hl i List.mem_cons_self, if_neg Bool.false_ne_true]
    refine ih (fun j hj t ht => ?_) fun j hj => hl j (List.mem_cons_of_mem _ hj)
    exact List.mem_append_right _ (hr j (List.mem_cons_of_mem _ hj) t ht)

section Taken

variable {i : Beaverc.Instruction} (taken rest : List Nat) {n : Nat} {code : List Instruction}

/-- The operands `taken` are used, each once. -/
theorem linear_taken (hs : (taken ++ rest).Nodup) (hu : (uses code).Perm taken)
    (hr : ∀ j ∈ code, ∀ t ∈ j.reads, t ∈ taken) (hd : dests code = [])
    (hl : ∀ j ∈ code, j.isLabel = false) :
    Emission.Linear i (taken ++ rest) n ⟨code, rest, n⟩ := by
  refine linear_rest rest ((hu.append_right rest).nodup_iff.mpr hs) (fun t ht => ?_)
    (fun t => List.mem_append_right _) hd (fun before hb => ?_) (fun j hj h => ?_)
  · exact List.mem_append_left _ (hu.mem_iff.mp ht)
  · exact scoped_of_reads (fun j hj t ht => hb t (List.mem_append_left _ (hr j hj t ht))) hl
  · exact absurd ((hl j hj).symm.trans h) Bool.false_ne_true

/-- They give way to a new temp. -/
theorem linear_operands (hn : ∀ t ∈ taken ++ rest, t < n) (hs : (taken ++ rest).Nodup)
    (hu : (uses code).Perm taken) (hr : ∀ j ∈ code, ∀ t ∈ j.reads, t ∈ taken)
    (hd : dests code = [n]) (hl : ∀ j ∈ code, j.isLabel = false) :
    Emission.Linear i (taken ++ rest) n ⟨code, n :: rest, n + 1⟩ := by
  refine linear_push rest hn ((hu.append_right rest).nodup_iff.mpr hs) (fun t ht => ?_)
    (fun t => List.mem_append_right _) hd (fun before hb => ?_) hl
  · exact List.mem_append_left _ (hu.mem_iff.mp ht)
  · exact scoped_of_reads (fun j hj t ht => hb t (List.mem_append_left _ (hr j hj t ht))) hl

end Taken

theorem take_append_nodup {a : Nat} {rest : List Nat} (k : Nat) (h : (a :: rest).Nodup) :
    (rest.take k ++ [a] ++ rest.drop k).Nodup ∧ (a :: rest.take k ++ rest.drop k).Nodup := by
  rw [List.cons_append, List.take_append_drop]
  refine ⟨?_, h⟩
  rw [List.append_assoc]
  refine List.nodup_middle.mpr ?_
  exact (List.take_append_drop k rest).symm ▸ h

end SingleUseLemmas

theorem translate_linear {f : Function} {i : Beaverc.Instruction} {stack : List Nat} {n : Nat}
    {e : Emission} (he : translate f i stack n = some e) (hn : ∀ t ∈ stack, t < n)
    (hs : stack.Nodup) : e.Linear i stack n := by
  cases translate_cases he with
  | loadConst | loadFunc | loadLocal | loadGlobal | pushReference | loadReference =>
    exact linear_push _ hn hs nofun (fun _ => id) rfl (fun _ _ => ⟨nofun, trivial⟩)
      (by simp [Instruction.isLabel])
  | garbageCollect | label | goto | throwUninitialized =>
    exact linear_rest _ hs nofun (fun _ => id) rfl (fun _ _ => ⟨nofun, trivial⟩)
      (by simp [Instruction.isLabel])
  | allocRecord =>
    exact linear_push _ hn hs nofun (fun _ => id) rfl (fun _ _ => ⟨nofun, nofun, trivial⟩)
      (by simp [Instruction.isLabel])
  | pop a rest =>
    exact linear_rest _ (List.nodup_cons.mp hs).2 nofun (fun t => List.mem_cons_of_mem _) rfl
      (fun _ _ => trivial) nofun
  -- one operand, used once; nothing is pushed
  | storeLocal _ a rest | storeGlobal _ a rest | storeReference _ a rest | ret a rest
  | ifTrue _ a rest =>
    exact linear_taken [a] rest hs (.refl _) (by simp [Instruction.reads]) rfl
      (by simp [Instruction.isLabel])
  | fieldStore _ a b rest =>
    exact linear_taken [a, b] rest hs (.swap a b []) (by simp [Instruction.reads]) rfl
      (by simp [Instruction.isLabel])
  | indexStore a b c rest =>
    exact linear_taken [a, b, c] rest hs (List.reverse_perm [a, b, c])
      (by simp [Instruction.reads]) rfl
      (by simp [Instruction.isLabel])
  -- one operand gives way to one new temp
  | neg a rest | not a rest | fieldLoad _ a rest =>
    exact linear_operands [a] rest hn hs (.refl _) (by simp [Instruction.reads]) rfl
      (by simp [Instruction.isLabel])
  -- two operands do, in the order of the stack or the other way round
  | sub a b rest | mul a b rest | gt a b rest | geq a b rest | and a b rest | or a b rest =>
    exact linear_operands [a, b] rest hn hs (.refl _) (by simp [Instruction.reads]) rfl
      (by simp [Instruction.isLabel])
  | add a b rest | eq a b rest | div a b rest | indexLoad a b rest =>
    exact linear_operands [a, b] rest hn hs (.swap a b []) (by simp [Instruction.reads]) rfl
      (by simp [Instruction.isLabel])
  | dup a rest =>
    -- the value goes on in two new temps, each with its own use
    have hnew : ∀ m, n ≤ m → m ∉ a :: rest := fun m hm h => absurd (hn m h) (Nat.not_lt_of_le hm)
    have hone : (n :: a :: rest).Nodup := List.nodup_cons.mpr ⟨hnew n (Nat.le_refl n), hs⟩
    have hboth : ((n + 1) :: n :: a :: rest).Nodup := by
      refine List.nodup_cons.mpr ⟨fun h => ?_, hone⟩
      rcases List.mem_cons.mp h with h | h
      · exact absurd h (Nat.succ_ne_self n)
      · exact hnew _ (Nat.le_succ n) h
    have hrange : List.range' n (n + 2 - n) = [n, n + 1] := by rw [Nat.add_sub_cancel_left]; rfl
    refine ⟨(@List.perm_middle _ a [n + 1, n] rest).nodup_iff.mp hboth, fun t ht => ?_,
      fun t ht => ?_, Nat.le_add_right n 2, hrange.symm,
      fun before hb => ⟨fun t ht => hb t ?_, trivial⟩, by simp [Instruction.isLabel]⟩
    · cases List.mem_singleton.mp ht
      exact List.mem_cons_self
    · rcases List.mem_cons.mp ht with rfl | ht
      · exact .inr ⟨Nat.le_succ n, Nat.lt_succ_self _⟩
      · rcases List.mem_cons.mp ht with rfl | ht
        · exact .inr ⟨Nat.le_refl _, Nat.lt_add_of_pos_right Nat.two_pos⟩
        · exact .inl (List.mem_cons_of_mem _ ht)
    · cases List.mem_singleton.mp ht
      exact List.mem_cons_self
  -- no code: the temps change places
  | swap a b rest =>
    exact linear_rest _ ((List.Perm.swap b a rest).nodup_iff.mp hs) nofun
      (fun t ht => (List.Perm.swap b a rest).mem_iff.mpr ht) rfl (fun _ _ => trivial) nofun
  | @allocClosure k a rest hk =>
    have htaken : ∀ t ∈ a :: rest.take k, t ∈ a :: rest :=
      fun t ht => (List.take_prefix (k + 1) (a :: rest)).subset ht
    refine linear_push (rest.drop k) hn ?_ (fun t ht => htaken t ?_) (fun t ht => ?_) rfl
      (fun before hb => ⟨fun t ht => hb t (htaken t ht), nofun, trivial⟩) ?_
    · simpa [uses, Instruction.uses, Instruction.isAssert, Instruction.reads] using
        (take_append_nodup k hs).2
    · simpa [uses, Instruction.uses, Instruction.isAssert, Instruction.reads] using ht
    · exact List.mem_cons_of_mem _ (List.mem_of_mem_drop ht)
    · simp [Instruction.isLabel]
  | @call k a rest hk =>
    have hreads : (Instruction.call a (rest.take k).reverse).reads = rest.take k ++ [a] := by
      simp [Instruction.reads]
    have huses : uses [.call a (rest.take k).reverse, .assign n .retVal] = rest.take k ++ [a] := by
      simp [uses, Instruction.uses, Instruction.isAssert, Instruction.reads]
    have htaken : ∀ t ∈ rest.take k ++ [a], t ∈ a :: rest := by
      intro t ht
      rcases List.mem_append.mp ht with ht | ht
      · exact List.mem_cons_of_mem _ (List.mem_of_mem_take ht)
      · exact List.mem_singleton.mp ht ▸ List.mem_cons_self
    refine linear_push (rest.drop k) hn ?_ ?_ (fun t ht => ?_) rfl
      (fun before hb => ⟨fun t ht => hb t (htaken t (hreads ▸ ht)), nofun, trivial⟩) ?_
    · rw [huses]
      exact (take_append_nodup k hs).1
    · rw [huses]
      exact htaken
    · exact List.mem_cons_of_mem _ (List.mem_of_mem_drop ht)
    · simp [Instruction.isLabel]

/-! ## The whole code -/

/-- What holds of the temps of a compiler, its stack included. -/
structure Compiler.Linear (c : Compiler) : Prop where
  nodup : (uses c.instructions ++ c.stack).Nodup
  used : ∀ t ∈ uses c.instructions, t < c.temps
  fresh : ∀ t ∈ c.stack, t < c.temps
  writes : dests c.instructions = List.range c.temps
  inScope : Scoped [] c.instructions
  pending : ∀ t ∈ c.stack, t ∈ written [] c.instructions

namespace SingleUseLemmas

variable {shared : Operands} {f : Function}

theorem step_inv {c c' : Compiler} {i : Beaverc.Instruction} (h : c.step i = some c') :
    ∃ e, translate c.bytecode i c.stack c.temps = some e ∧ c'.bytecode = c.bytecode ∧
      c'.stack = e.stack ∧ c'.temps = e.temps ∧ c'.instructions = c.instructions ++ e.code := by
  unfold Compiler.step at h
  obtain ⟨e, he, hc⟩ := Option.bind_eq_some_iff.mp h
  cases hc
  exact ⟨e, he, rfl, rfl, rfl, rfl⟩

/-- A translation leaves a stack of the depth that the instruction leaves. -/
theorem translate_depth {i : Beaverc.Instruction} {stack : List Nat} {n d : Nat} {e : Emission}
    (he : translate f i stack n = some e) (hd : i.depth stack.length = some d)
    (hn : ∀ t ∈ stack, t < n) : e.stack.length = d := by
  have hc : ∀ k, i = .loadConst k → k < f.constants.length := by
    rintro k rfl
    obtain ⟨c, hc, -⟩ := Option.bind_eq_some_iff.mp he
    exact (List.getElem?_eq_some_iff.mp hc).1
  obtain ⟨e', he', hfits⟩ := translate_fits f hd hc hn
  rw [he] at he'
  cases he'
  exact hfits.length

theorem linear_step {c c' : Compiler} {i : Beaverc.Instruction} (h : c.Linear)
    (hstep : c.step i = some c') (hl : ∀ l, i = .label l → c.stack = []) : c'.Linear := by
  obtain ⟨e, he, -, hs, ht, hcode⟩ := step_inv hstep
  have hnodup := List.nodup_append.mp h.nodup
  have hlin := translate_linear he h.fresh hnodup.2.1
  have hle := hlin.le
  have hleft : ∀ t ∈ e.stack, t < e.temps := by
    intro t ht
    rcases hlin.left t ht with h' | h'
    · exact Nat.lt_of_lt_of_le (h.fresh t h') hle
    · exact h'.2
  refine ⟨?_, fun t hu => ?_, ?_, ?_, ?_, fun t hp => ?_⟩
  · rw [hcode, hs, uses_append, List.append_assoc]
    refine List.nodup_append.mpr ⟨hnodup.1, hlin.nodup, fun a ha b hb hab => ?_⟩
    subst hab
    have hold : a ∈ c.stack ∨ c.temps ≤ a := by
      rcases List.mem_append.mp hb with hb | hb
      · exact .inl (hlin.used a hb)
      · exact (hlin.left a hb).imp_right And.left
    rcases hold with hold | hold
    · exact hnodup.2.2 a ha a hold rfl
    · exact absurd (h.used a ha) (Nat.not_lt_of_le hold)
  · rw [hcode, uses_append] at hu
    rw [ht]
    refine Nat.lt_of_lt_of_le ?_ hle
    rcases List.mem_append.mp hu with hu | hu
    · exact h.used t hu
    · exact h.fresh t (hlin.used t hu)
  · rw [hs, ht]
    exact hleft
  · rw [hcode, dests_append, h.writes, hlin.writes, ht, List.range_eq_range', List.range_eq_range']
    have hrange := List.range'_append_1 (s := 0) (m := c.temps) (n := e.temps - c.temps)
    rwa [Nat.zero_add, Nat.add_sub_cancel' hle] at hrange
  · rw [hcode, scoped_append]
    exact ⟨h.inScope, hlin.inScope _ h.pending⟩
  · rw [hs] at hp
    rw [hcode, written_append]
    by_cases hlabel : ∃ l, i = .label l
    · obtain ⟨l, rfl⟩ := hlabel
      rw [hl l rfl] at he
      cases he
      cases hp
    · rw [mem_written fun j hj => Bool.eq_false_iff.mpr fun h => hlabel (hlin.labels j hj h),
        hlin.writes, List.mem_range'_1]
      rcases hlin.left t hp with h' | h'
      · exact .inr (h.pending t h')
      · exact .inl ⟨h'.1, by rw [Nat.add_sub_cancel' hle]; exact h'.2⟩

/-- The run lemma. -/
theorem linear_upto (hw : WellEmitted f) {n : Nat} {c : Compiler}
    (h : Compiler.upto shared f n = some c) (hn : n ≤ f.instructions.length) :
    c.Linear ∧ c.bytecode = f ∧ depth 0 (f.instructions.take n) = some c.stack.length := by
  induction n generalizing c with
  | zero =>
    cases h
    exact ⟨⟨List.nodup_nil, nofun, nofun, rfl, trivial, nofun⟩, rfl, rfl⟩
  | succ n ih =>
    have hi := List.getElem?_eq_getElem (l := f.instructions) (i := n) hn
    rw [upto_succ hi] at h
    obtain ⟨c₀, hc₀, hstep⟩ := Option.bind_eq_some_iff.mp h
    obtain ⟨hlin, hb, hdepth⟩ := ih hc₀ (Nat.le_of_succ_le hn)
    obtain ⟨⟨lo, hi', hseg⟩, -⟩ := id hw
    obtain ⟨k, k', hk, hd, hk'⟩ := LabelsLemmas.depth_at hseg.depth_eq hi
    rw [hdepth, Option.some.injEq] at hk
    subst hk
    obtain ⟨e, he, hb', hs, ht, hcode⟩ := step_inv hstep
    rw [hb] at he
    refine ⟨linear_step hlin hstep fun l hl => ?_, hb'.trans hb, ?_⟩
    · rw [hl] at hd
      have hzero := (Option.ite_none_right_eq_some.mp hd).1
      exact List.length_eq_zero_iff.mp hzero
    · rw [hk', hs, translate_depth he hd hlin.fresh]

end SingleUseLemmas

/-- The code compiled for a well emitted function writes each temp once and uses it
at most once, behind the same label. -/
theorem compile_linear {shared : Operands} {f : Function} (hw : WellEmitted f) {c : Compiler}
    (h : Compiler.compile shared f = some c) : c.Linear :=
  (linear_upto hw (compile_eq_upto.symm.trans h) (Nat.le_refl _)).1

end Beaverc.Ir
