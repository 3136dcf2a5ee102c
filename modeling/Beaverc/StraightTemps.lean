import Beaverc.SingleUse

/-!
# Where temps live

In the code that `IR::Compiler::compile` makes of an emitted function each temp is
written by one instruction and taken by one at most, further down on the same
straight piece of code: no label, jump or conditional jump stands between the
two, since all of these leave nothing on the stack of temps.
-/

namespace Beaverc.Ir
open SingleUseLemmas TranslationLemmas

/-- A place where control leaves the straight line, or comes back to it. -/
def Instruction.isBranch : Instruction → Bool
  | .outputLabel _ | .jump _ | .shortJump _ | .condJump .. => true
  | _ => false

def WritesAt (code : List Instruction) (t p : Nat) : Prop :=
  ∃ i, code[p]? = some i ∧ t ∈ i.dests

def ReadsAt (code : List Instruction) (t p : Nat) : Prop :=
  ∃ i, code[p]? = some i ∧ t ∈ i.reads

/-- A read by an instruction that is no `CallAssert`. -/
def UsesAt (code : List Instruction) (t p : Nat) : Prop :=
  ∃ i, code[p]? = some i ∧ t ∈ i.uses

/-- No branch stands between the positions `p` and `q`, and no back edge can lead
there, for it would lead to a label. -/
def Unbroken (code : List Instruction) (p q : Nat) : Prop :=
  ∀ m i, p < m → m < q → code[m]? = some i → i.isBranch = false

/-- A temp is written in front of position `q` and no branch has come since. -/
def HeldAt (code : List Instruction) (t q : Nat) : Prop :=
  ∃ p, p < q ∧ WritesAt code t p ∧ Unbroken code p q

/-- What the passes rely on about the temps `0, 1, ..., count - 1`. -/
structure SingleUse (count : Nat) (code : List Instruction) : Prop where
  assigned : ∀ t, t < count → ∃! p, WritesAt code t p
  used : ∀ t p q, UsesAt code t p → UsesAt code t q → p = q
  straight : ∀ t q, ReadsAt code t q → t < count ∧ HeldAt code t q

/-- The invariant of the compiler: what is read is held, and so are the temps on
the stack. -/
structure Compiler.Straight (c : Compiler) : Prop where
  reads : ∀ t q, ReadsAt c.instructions t q → HeldAt c.instructions t q
  pending : ∀ t ∈ c.stack, HeldAt c.instructions t c.instructions.length

/-! ## One instruction -/

namespace StraightTempsLemmas

/-- What is emitted reads temps of the stack, and branches for a branch only. -/
theorem translate_emits {f : Function} {i : Beaverc.Instruction} {stack : List Nat} {n : Nat}
    {e : Emission} (he : translate f i stack n = some e) {j : Instruction} (hj : j ∈ e.code) :
    (∀ t ∈ j.reads, t ∈ stack) ∧ (i.isPlain = true → j.isBranch = false) := by
  cases translate_cases he with
  | loadConst | loadFunc | loadLocal | loadGlobal | pushReference | loadReference | garbageCollect
  | throwUninitialized =>
    cases List.mem_singleton.mp hj
    exact ⟨fun t ht => absurd ht List.not_mem_nil, fun _ => rfl⟩
  | label | goto =>
    cases List.mem_singleton.mp hj
    exact ⟨fun t ht => absurd ht List.not_mem_nil, fun h => absurd h Bool.false_ne_true⟩
  | allocRecord =>
    simp only [List.mem_cons, List.not_mem_nil, or_false] at hj
    rcases hj with rfl | rfl
    · exact ⟨fun t ht => absurd ht List.not_mem_nil, fun _ => rfl⟩
    · exact ⟨fun t ht => absurd ht List.not_mem_nil, fun _ => rfl⟩
  | storeLocal | storeGlobal | storeReference | ret | dup =>
    cases List.mem_singleton.mp hj
    refine ⟨fun t ht => ?_, fun _ => rfl⟩
    cases List.mem_singleton.mp ht
    exact List.mem_cons_self
  | pop | swap => cases hj
  | ifTrue =>
    refine ⟨fun t ht => ?_, fun h => absurd h Bool.false_ne_true⟩
    simp only [List.mem_cons, List.not_mem_nil, or_false] at hj
    rcases hj with rfl | rfl
    · exact List.mem_singleton.mp ht ▸ List.mem_cons_self
    · exact List.mem_singleton.mp ht ▸ List.mem_cons_self
  | neg | not | fieldLoad =>
    simp only [List.mem_cons, List.not_mem_nil, or_false] at hj
    simp only [List.mem_cons]
    rcases hj with rfl | rfl <;> refine ⟨fun t ht => ?_, fun _ => rfl⟩ <;>
      simp only [Instruction.reads, List.mem_cons, List.not_mem_nil, or_false] at ht <;>
      grind
  | add | sub | mul | div | gt | geq | eq | and | or | indexLoad | fieldStore =>
    simp only [List.mem_cons, List.not_mem_nil, or_false] at hj
    simp only [List.mem_cons]
    rcases hj with rfl | rfl | rfl | rfl <;> refine ⟨fun t ht => ?_, fun _ => rfl⟩ <;>
      simp only [Instruction.reads, List.mem_cons, List.not_mem_nil, or_false] at ht <;>
      grind
  | indexStore =>
    cases List.mem_singleton.mp hj
    refine ⟨fun t ht => ?_, fun _ => rfl⟩
    simp only [Instruction.reads, List.mem_cons, List.not_mem_nil, or_false] at ht ⊢
    grind
  -- the callee or function on top, and `k` operands below it
  | allocClosure | call =>
    simp only [List.mem_cons, List.not_mem_nil, or_false] at hj
    rcases hj with rfl | rfl
    · refine ⟨fun t ht => ?_, fun _ => rfl⟩
      simp only [Instruction.reads, List.reverse_reverse, List.mem_append, List.mem_cons,
        List.not_mem_nil, or_false] at ht ⊢
      rcases ht with ht | ht <;>
        first | exact .inl ht | exact .inr (List.mem_of_mem_take ht)
    · exact ⟨fun t ht => absurd ht List.not_mem_nil, fun _ => rfl⟩

/-- A branch comes last in what a bytecode instruction is translated to, and leaves
an empty stack. -/
theorem translate_branch {f : Function} {i : Beaverc.Instruction} {stack : List Nat} {n : Nat}
    {e : Emission} (he : translate f i stack n = some e) {m : Nat} {j : Instruction}
    (hm : e.code[m]? = some j) (hj : j.isBranch = true) :
    m + 1 = e.code.length ∧ ∀ d d', i.depth d = some d' → d' = 0 := by
  cases hplain : i.isPlain with
  | true =>
    have hno := (translate_emits he (List.mem_of_getElem? hm)).2 hplain
    rw [hno] at hj
    cases hj
  | false =>
    refine ⟨?_, fun d d' hd => ?_⟩
    · cases translate_cases he with
      | label | goto =>
        obtain _ | m := m
        · rfl
        · cases hm
      | ifTrue =>
        obtain _ | _ | m := m
        · cases hm
          cases hj
        · rfl
        · cases hm
      | _ => cases hplain
    · cases i with
      | label | goto | ifTrue =>
        exact (Option.some.inj (Option.ite_none_right_eq_some.mp hd).2).symm
      | _ => cases hplain

/-- Where the lists that the elements of a list give have no repetition in all, each
element of one of them is at one place. -/
theorem place_unique {α : Type} {g : α → List Nat} {l : List α} (h : (l.flatMap g).Nodup)
    {p q : Nat} {a b : α} (hp : l[p]? = some a) (hq : l[q]? = some b) {t : Nat} (ha : t ∈ g a)
    (hb : t ∈ g b) : p = q := by
  have hpairwise := List.pairwise_iff_getElem.mp (List.nodup_flatMap.mp h).2
  obtain ⟨hlp, rfl⟩ := List.getElem?_eq_some_iff.mp hp
  obtain ⟨hlq, rfl⟩ := List.getElem?_eq_some_iff.mp hq
  rcases Nat.lt_trichotomy p q with hlt | heq | hlt
  · exact absurd hb (hpairwise p q hlp hlq hlt ha)
  · exact heq
  · exact absurd ha (hpairwise q p hlq hlp hlt hb)

theorem heldAt_append {code more : List Instruction} {t q : Nat} (hq : q ≤ code.length) :
    HeldAt (code ++ more) t q ↔ HeldAt code t q := by
  have hsame : ∀ m, m < q → (code ++ more)[m]? = code[m]? := fun m hm =>
    List.getElem?_append_left (Nat.lt_of_lt_of_le hm hq)
  constructor
  · rintro ⟨p, hp, ⟨i, hi, ht⟩, hb⟩
    refine ⟨p, hp, ⟨i, hsame p hp ▸ hi, ht⟩, fun m j hm hmq hj => ?_⟩
    exact hb m j hm hmq (hsame m hmq ▸ hj)
  · rintro ⟨p, hp, ⟨i, hi, ht⟩, hb⟩
    refine ⟨p, hp, ⟨i, (hsame p hp).symm ▸ hi, ht⟩, fun m j hm hmq hj => ?_⟩
    exact hb m j hm hmq ((hsame m hmq).symm ▸ hj)

/-- A temp is held up to the next branch. -/
theorem heldAt_extend {code more : List Instruction} {t k : Nat}
    (h : HeldAt code t code.length)
    (hk : ∀ m j, m < k → more[m]? = some j → j.isBranch = false) :
    HeldAt (code ++ more) t (code.length + k) := by
  have hmore : HeldAt (code ++ more) t code.length := (heldAt_append (Nat.le_refl _)).mpr h
  obtain ⟨p, hp, hw, hb⟩ := hmore
  refine ⟨p, Nat.lt_add_right k hp, hw, fun m j hm hmk hj => ?_⟩
  rcases Nat.lt_or_ge m code.length with hlt | hge
  · exact hb m j hm hlt hj
  · rw [List.getElem?_append_right hge] at hj
    exact hk (m - code.length) j (by omega) hj

theorem straight_step {c c' : Compiler} {i : Beaverc.Instruction} (h : Compiler.Straight c)
    (hlin : c.Linear) (hstep : c.step i = some c') {d' : Nat}
    (hd : i.depth c.stack.length = some d') : Compiler.Straight c' := by
  obtain ⟨e, he, -, hs, -, hcode⟩ := step_inv hstep
  have hemit := translate_linear he hlin.fresh (List.nodup_append.mp hlin.nodup).2.1
  refine ⟨fun t q hr => ?_, fun t ht => ?_⟩
  · rw [hcode] at hr ⊢
    obtain ⟨j, hj, htj⟩ := hr
    rcases Nat.lt_or_ge q c.instructions.length with hlt | hge
    · rw [List.getElem?_append_left hlt] at hj
      exact (heldAt_append (Nat.le_of_lt hlt)).mpr (h.reads t q ⟨j, hj, htj⟩)
    · -- what is emitted reads the stack, and only its last instruction branches
      rw [List.getElem?_append_right hge] at hj
      have hstack := (translate_emits he (List.mem_of_getElem? hj)).1 t htj
      have hfree : ∀ (m : Nat) (k : Instruction), m < q - c.instructions.length →
          e.code[m]? = some k → k.isBranch = false := by
        intro m k hm hk
        refine Bool.eq_false_iff.mpr fun hbranch => ?_
        have hlast := (translate_branch he hk hbranch).1
        have hlt := (List.getElem?_eq_some_iff.mp hj).1
        omega
      have hheld := heldAt_extend (h.pending t hstack) hfree
      rwa [Nat.add_sub_cancel' hge] at hheld
  · rw [hs] at ht
    rw [hcode, List.length_append]
    -- the stack is empty behind a branch
    have hplain : ∀ (m : Nat) (k : Instruction), e.code[m]? = some k → k.isBranch = false := by
      intro m k hk
      refine Bool.eq_false_iff.mpr fun hbranch => ?_
      have hzero := (translate_branch he hk hbranch).2 _ _ hd
      have hlen := translate_depth he hd hlin.fresh
      rw [hzero] at hlen
      rw [List.length_eq_zero_iff.mp hlen] at ht
      cases ht
    rcases hemit.left t ht with hold | ⟨hge, hlt⟩
    · exact heldAt_extend (h.pending t hold) fun m k _ hk => hplain m k hk
    · have hnew : t ∈ dests e.code := by
        rw [hemit.writes, List.mem_range'_1]
        omega
      obtain ⟨j, hj, htj⟩ := List.mem_flatMap.mp hnew
      obtain ⟨m, hm⟩ := List.getElem?_of_mem hj
      have hmlt := (List.getElem?_eq_some_iff.mp hm).1
      refine ⟨c.instructions.length + m, by omega, ⟨j, ?_, htj⟩, fun q k hq hqlt hk => ?_⟩
      · rw [List.getElem?_append_right (Nat.le_add_right _ _), Nat.add_sub_cancel_left]
        exact hm
      · rw [List.getElem?_append_right (by omega)] at hk
        exact hplain _ k hk

/-- The run lemma. -/
theorem straight_upto {shared : Operands} {f : Function} (hw : WellEmitted f) {n : Nat}
    {c : Compiler} (h : Compiler.upto shared f n = some c) (hn : n ≤ f.instructions.length) :
    Compiler.Straight c := by
  induction n generalizing c with
  | zero =>
    cases h
    refine ⟨fun t q hr => ?_, fun t ht => absurd ht List.not_mem_nil⟩
    obtain ⟨i, hi, -⟩ := hr
    cases hi
  | succ n ih =>
    have hi := List.getElem?_eq_getElem (l := f.instructions) (i := n) hn
    rw [upto_succ hi] at h
    obtain ⟨c₀, hc₀, hstep⟩ := Option.bind_eq_some_iff.mp h
    obtain ⟨hlin, -, hdepth⟩ := linear_upto hw hc₀ (Nat.le_of_succ_le hn)
    obtain ⟨⟨lo, hi', hseg⟩, -⟩ := id hw
    obtain ⟨k, k', hk, hd, -⟩ := LabelsLemmas.depth_at hseg.depth_eq hi
    rw [hdepth, Option.some.injEq] at hk
    subst hk
    exact straight_step (ih hc₀ (Nat.le_of_succ_le hn)) hlin hstep hd

end StraightTempsLemmas

open StraightTempsLemmas

/-- The code that is compiled for a function of a compiled program assigns each
temp once, uses it once at most, and reads it on the straight piece of code that
assigns it. -/
theorem compile_singleUse (prog : Program) {f : Function}
    (hf : SubFunction (Beaverc.compile prog) f) (shared : Operands) {c : Compiler}
    (h : Compiler.compile shared f = some c) : SingleUse c.temps c.instructions := by
  have hw := compile_wellEmitted prog hf
  have hlin := compile_linear hw h
  have hstraight := straight_upto hw (compile_eq_upto.symm.trans h) (Nat.le_refl _)
  have hdests : (dests c.instructions).Nodup := hlin.writes ▸ List.nodup_range
  refine ⟨fun t ht => ?_, ?_, fun t q hr => ⟨?_, hstraight.reads t q hr⟩⟩
  · have hmem : t ∈ dests c.instructions := hlin.writes ▸ List.mem_range.mpr ht
    obtain ⟨i, hi, hti⟩ := List.mem_flatMap.mp hmem
    obtain ⟨p, hp⟩ := List.getElem?_of_mem hi
    refine ⟨p, ⟨i, hp, hti⟩, ?_⟩
    rintro q ⟨j, hj, htj⟩
    exact place_unique hdests hj hp htj hti
  · rintro t p q ⟨i, hi, hti⟩ ⟨j, hj, htj⟩
    exact place_unique (List.nodup_append.mp hlin.nodup).1 hi hj hti htj
  · obtain ⟨p, -, ⟨i, hi, hti⟩, -⟩ := hstraight.reads t q hr
    have hmem : t ∈ dests c.instructions := List.mem_flatMap.mpr ⟨i, List.mem_of_getElem? hi, hti⟩
    rw [hlin.writes] at hmem
    exact List.mem_range.mp hmem

/-- The code of `f = fun() { return false & 3; };` in the function `f`. -/
theorem compile_singleUse_shortCircuit : ∃ c,
    Compiler.compile .fresh shortCircuitFunction = some c ∧
      SingleUse c.temps c.instructions := by
  have hsome : (Compiler.compile .fresh shortCircuitFunction).isSome = true := rfl
  obtain ⟨c, hc⟩ := Option.isSome_iff_exists.mp hsome
  exact ⟨c, hc, compile_singleUse shortCircuit shortCircuit_sub .fresh hc⟩

end Beaverc.Ir
