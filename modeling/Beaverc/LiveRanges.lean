import Beaverc.Compiler
import Beaverc.Loops

/-!
# Live ranges of variables

The interval that `VarLivenessOptimization` leaves a variable begins at its first
mention in the list, or where an earlier run put it, and ends at the last
position that keeps it alive. On a path that stays in the order of the list the
interval covers what lies between a store and a load. Where a path goes back,
nothing puts the beginning back to the place of the label, and the end reaches
the jump only if a load is found behind the place that the label has in the
bytecode, and if the jump is not a short one.
-/

namespace Beaverc.Ir
open Results LoopsLemmas

/-! ## Paths from a definition to a use -/

/-- A path, by its positions, to a load of a variable without a store before. -/
inductive ToLoad (code : List Instruction) (v : Nat) : List Nat → Prop
  | load {p dest : Nat} : code[p]? = some (.assign dest (.var v)) → ToLoad code v [p]
  | step {p q : Nat} {i : Instruction} {rest : List Nat} : code[p]? = some i →
      i.stored? ≠ some v → Flows code p q → ToLoad code v (q :: rest) →
      ToLoad code v (p :: q :: rest)

/-- A path on which a value of the variable is brought from a store, or as its
initial value from the beginning of the code, to a load. -/
inductive Brings (code : List Instruction) (v : Nat) : List Nat → Prop
  | initial {rest : List Nat} : ToLoad code v (0 :: rest) → Brings code v (0 :: rest)
  | stored {d src q : Nat} {rest : List Nat} : code[d]? = some (.store (.var v) src) →
      Flows code d q → ToLoad code v (q :: rest) → Brings code v (d :: q :: rest)

/-- Every position on such a path lies in the interval of the variable. -/
def RangesCover (code : List Instruction) (o : Operands) : Prop :=
  ∀ v path, Brings code v path → ∀ p ∈ path,
    (o.var v).liveStart ≤ p ∧ ((p : Int) : WithTop Int) ≤ (o.var v).liveEnd

/-- The instruction at the position loads or stores the variable. -/
def Mentions (code : List Instruction) (v p : Nat) : Prop :=
  (∃ dest, code[p]? = some (.assign dest (.var v))) ∨
    ∃ src, code[p]? = some (.store (.var v) src)

/-- The interval of the variable will have begun at the position: the variable has
been mentioned, or an earlier run let it begin. -/
def BegunBy (c : Compiler) (v p : Nat) : Prop :=
  (∃ s, s ≤ p ∧ Mentions c.instructions v s) ∨
    (c.operands.var v).liveStart ≠ -1 ∧ (c.operands.var v).liveStart ≤ p

/-- What keeps a variable alive up to position `e`: a load there, or a jump there
and a load between the place of its label in the bytecode and the jump. -/
inductive KeptAlive (c : Compiler) (v : Nat) : Nat → Prop
  | load {e dest : Nat} : c.instructions[e]? = some (.assign dest (.var v)) → KeptAlive c v e
  | jump {e l r dest : Nat} {i : Instruction} : c.instructions[e]? = some i →
      (i = .jump l ∨ ∃ cond, i = .condJump cond l) → c.bytecode.labelPosition l ≤ r → r ≤ e →
      c.instructions[r]? = some (.assign dest (.var v)) → KeptAlive c v e

/-- The interval of the variable will not have ended at the position. -/
def KeptUpTo (c : Compiler) (v p : Nat) : Prop :=
  ∃ e, p ≤ e ∧ KeptAlive c v e

/-- Where an initial value is loaded the interval begins at once, and where a value
is brought from a jump at `j` back to its label at `t`, the interval has begun at
the label and is kept up to the jump. -/
structure Spanned (c : Compiler) : Prop where
  initial : ∀ v rest, ToLoad c.instructions v (0 :: rest) → BegunBy c v 0
  back : ∀ v before j t after, t ≤ j → Brings c.instructions v (before ++ j :: t :: after) →
    BegunBy c v t ∧ KeptUpTo c v j

/-! ## What the pass computes -/

namespace LiveRangesLemmas

theorem var_modifyVar (o : Operands) (n v : Nat) (f : Var → Var) :
    (o.modifyVar n f).var v = if v = n then f (o.var v) else o.var v := by
  unfold Operands.modifyVar
  show Function.update o.var n (f (o.var n)) v = _
  split
  · next h => rw [h, Function.update_self]
  · next h => rw [Function.update_of_ne h]

theorem le_extend (count : Nat) (x : Operand) : x.liveEnd ≤ (x.extend count).liveEnd := by
  unfold Operand.extend
  split
  · next h => exact h.le
  · exact le_rfl

theorem count_le_extend (count : Nat) (x : Operand) :
    ((count : Int) : WithTop Int) ≤ (x.extend count).liveEnd := by
  unfold Operand.extend
  split
  · exact le_rfl
  · next h => exact not_lt.mp h

/-- A variable that is loaded in the part that `adjust_live_ends` looks at lives
to `count`, and no live interval gets shorter. -/
theorem adjust_liveEnd (count : Nat) (part : List Instruction) (o : Operands) (v : Nat) :
    (o.var v).liveEnd ≤ ((part.foldl (fun o i =>
      match i with
      | .assign _ (.var n) => o.modifyVar n (Var.modify (Operand.extend count))
      | _ => o) o).var v).liveEnd ∧
    (∀ dest, .assign dest (.var v) ∈ part → ((count : Int) : WithTop Int) ≤
      ((part.foldl (fun o i =>
        match i with
        | .assign _ (.var n) => o.modifyVar n (Var.modify (Operand.extend count))
        | _ => o) o).var v).liveEnd) := by
  induction part generalizing o with
  | nil => exact ⟨le_rfl, fun _ h => absurd h List.not_mem_nil⟩
  | cons i part ih =>
    rw [List.foldl_cons]
    have hmono : (o.var v).liveEnd ≤ ((match i with
        | .assign _ (.var n) => o.modifyVar n (Var.modify (Operand.extend count))
        | _ => o : Operands).var v).liveEnd := by
      split
      · rw [var_modifyVar]
        split
        · exact le_extend count _
        · exact le_rfl
      · exact le_rfl
    refine ⟨hmono.trans (ih _).1, fun dest hd => ?_⟩
    rcases List.mem_cons.mp hd with rfl | hd
    · refine le_trans ?_ (ih _).1
      rw [var_modifyVar, if_pos rfl]
      exact count_le_extend count _
    · exact (ih _).2 dest hd

theorem coe_lt {e count : Nat} (h : e < count) :
    ((e : Int) : WithTop Int) ≤ ((count : Int) : WithTop Int) :=
  WithTop.coe_le_coe.mpr (Int.ofNat_le.mpr h.le)

/-- A visit does not shorten a live interval that ends before it. -/
theorem le_varLiveness {c : Compiler} {o : Operands} {i : Instruction} {v e count : Nat}
    (h : ((e : Int) : WithTop Int) ≤ (o.var v).liveEnd) (he : e < count) :
    ((e : Int) : WithTop Int) ≤ ((varLiveness c count i o).var v).liveEnd := by
  unfold varLiveness
  split
  · rw [var_modifyVar]
    split
    · exact coe_lt he
    · exact h
  · rw [var_modifyVar]
    split
    · show _ ≤ (Operand.write count (o.var v).toOperand).liveEnd
      unfold Operand.write
      show _ ≤ if (o.var v).liveEnd = ⊤ then _ else _
      split
      · exact coe_lt he
      · exact h
    · exact h
  · exact h.trans (adjust_liveEnd count _ o v).1
  · exact h.trans (adjust_liveEnd count _ o v).1
  · exact h

/-- A visit makes the variables live that it keeps alive. -/
theorem keptAlive_varLiveness {c : Compiler} {o : Operands} {i : Instruction} {v count : Nat}
    (hi : c.instructions[count]? = some i) (hk : KeptAlive c v count) :
    ((count : Int) : WithTop Int) ≤ ((varLiveness c count i o).var v).liveEnd := by
  cases hk with
  | load hl =>
    rw [hi, Option.some.injEq] at hl
    subst hl
    show _ ≤ ((o.modifyVar v _).var v).liveEnd
    rw [var_modifyVar, if_pos rfl]
    exact le_rfl
  | @jump l r dest j hj hkind hlr hrc hr =>
    rw [hi, Option.some.injEq] at hj
    subst hj
    have hmem : .assign dest (.var v) ∈
        (c.instructions.take (count + 1)).drop (c.bytecode.labelPosition l) := by
      refine List.mem_of_getElem? (i := r - c.bytecode.labelPosition l) ?_
      rw [List.getElem?_drop, Nat.add_sub_cancel' hlr, List.getElem?_take_of_lt (by omega), hr]
    have hadjust := (adjust_liveEnd count _ o v).2 dest hmem
    rcases hkind with rfl | ⟨cond, rfl⟩
    · exact hadjust
    · exact hadjust

/-- The liveness pass leaves every variable alive where it is kept alive. -/
theorem varLiveness_liveEnd {c : Compiler} {code : List Instruction} {o : Operands}
    {obsolete : List Nat}
    (h : loop (fun count i o => .ok ⟨i, varLiveness c count i o, []⟩) 0 c.instructions c.operands =
      .ok (code, o, obsolete)) :
    code = c.instructions ∧ obsolete = [] ∧
      ∀ v e, KeptAlive c v e → ((e : Int) : WithTop Int) ≤ (o.var v).liveEnd := by
  have hinv := loop_invariant
    (fun done rest o obsolete => done ++ rest = c.instructions ∧ obsolete = [] ∧
      ∀ v e, e < done.length → KeptAlive c v e → ((e : Int) : WithTop Int) ≤ (o.var v).liveEnd)
    (fun {done i rest o obsolete x} h hx => by
      obtain ⟨hcode, hobs, hkept⟩ := h
      cases hx
      have hi : c.instructions[done.length]? = some i := by rw [← hcode]; simp
      refine ⟨by rw [List.append_assoc]; exact hcode, by rw [hobs]; rfl, fun v e he hk => ?_⟩
      rw [List.length_append, List.length_singleton] at he
      rcases Nat.lt_succ_iff_lt_or_eq.mp he with he | rfl
      · exact le_varLiveness (hkept v e he hk) he
      · exact keptAlive_varLiveness hi hk)
    ⟨rfl, rfl, fun v e he => absurd he (Nat.not_lt_zero e)⟩ h
  rw [List.append_nil] at hinv
  obtain ⟨hcode, hobs, hkept⟩ := hinv
  refine ⟨hcode, hobs, fun v e hk => hkept v e ?_ hk⟩
  rw [hcode]
  cases hk with
  | load hl => exact (List.getElem?_eq_some_iff.mp hl).1
  | jump hj => exact (List.getElem?_eq_some_iff.mp hj).1

/-- One instruction in `adjust_live_ends`. -/
def adjustOne (count : Nat) (o : Operands) (i : Instruction) : Operands :=
  match i with
  | .assign _ (.var n) => o.modifyVar n (Var.modify (Operand.extend count))
  | _ => o

theorem extend_cases (count : Nat) (x : Operand) :
    (x.extend count).liveStart = x.liveStart ∧ ((x.extend count).liveEnd = x.liveEnd ∨
      (x.extend count).liveEnd = ((count : Int) : WithTop Int)) := by
  unfold Operand.extend
  split
  · exact ⟨rfl, .inr rfl⟩
  · exact ⟨rfl, .inl rfl⟩

/-- The beginnings stay, and an end is moved to `count` for a load only. -/
theorem adjustOne_cases (count : Nat) (o : Operands) (i : Instruction) (v : Nat) :
    ((adjustOne count o i).var v).liveStart = (o.var v).liveStart ∧
      (((adjustOne count o i).var v).liveEnd = (o.var v).liveEnd ∨
        ((adjustOne count o i).var v).liveEnd = ((count : Int) : WithTop Int) ∧
          ∃ dest, i = .assign dest (.var v)) := by
  unfold adjustOne
  split
  · next dest n =>
    rw [var_modifyVar]
    split
    · next hvn =>
      subst hvn
      obtain ⟨hstart, hend⟩ := extend_cases count (o.var v).toOperand
      exact ⟨hstart, hend.imp id fun h => ⟨h, dest, rfl⟩⟩
    · exact ⟨rfl, .inl rfl⟩
  · exact ⟨rfl, .inl rfl⟩

theorem adjust_cases (count : Nat) (part : List Instruction) (o : Operands) (v : Nat) :
    ((part.foldl (adjustOne count) o).var v).liveStart = (o.var v).liveStart ∧
      (((part.foldl (adjustOne count) o).var v).liveEnd = (o.var v).liveEnd ∨
        ((part.foldl (adjustOne count) o).var v).liveEnd = ((count : Int) : WithTop Int) ∧
          ∃ dest, .assign dest (.var v) ∈ part) := by
  induction part generalizing o with
  | nil => exact ⟨rfl, .inl rfl⟩
  | cons i part ih =>
    rw [List.foldl_cons]
    obtain ⟨hstart, hend⟩ := ih (adjustOne count o i)
    obtain ⟨hstart₁, hend₁⟩ := adjustOne_cases count o i v
    refine ⟨hstart.trans hstart₁, ?_⟩
    rcases hend with hend | ⟨hend, dest, hd⟩
    · rw [hend]
      refine hend₁.imp id ?_
      rintro ⟨hcount, dest, rfl⟩
      exact ⟨hcount, dest, List.mem_cons_self⟩
    · exact .inr ⟨hend, dest, List.mem_cons_of_mem _ hd⟩

/-- Where an interval begins once the first `n` instructions have been visited: at
the first mention among them, if it did not begin earlier. -/
def StartsAt (c : Compiler) (v n : Nat) (start : Int) : Prop :=
  (∀ s, s < n → ¬ Mentions c.instructions v s) ∧ start = (c.operands.var v).liveStart ∨
    ∃ m, m < n ∧ Mentions c.instructions v m ∧
      (∀ s, Mentions c.instructions v s → m ≤ s) ∧
      start = if (c.operands.var v).liveStart = -1 then (m : Int)
        else min (c.operands.var v).liveStart m

/-- Where an interval ends: once a load has been visited, at a position that keeps
the variable alive. -/
def EndsAt (c : Compiler) (v n : Nat) (stop : WithTop Int) : Prop :=
  (∃ r dest, r < n ∧ c.instructions[r]? = some (.assign dest (.var v))) →
    ∃ e : Nat, stop = ((e : Int) : WithTop Int) ∧ KeptAlive c v e

/-- A mention moves the beginning as `read` and `write` do. -/
theorem startsAt_mention {c : Compiler} {v n : Nat} {start : Int} (h : StartsAt c v n start)
    (hm : Mentions c.instructions v n) :
    StartsAt c v (n + 1) (if start = -1 ∨ (n : Int) < start then (n : Int) else start) := by
  rcases h with ⟨hnone, rfl⟩ | ⟨m, hlt, hmention, hfirst, rfl⟩
  · refine .inr ⟨n, Nat.lt_succ_self n, hm, fun s hs => ?_, ?_⟩
    · exact Nat.le_of_not_lt fun hlt => hnone s hlt hs
    · split
      · next hor =>
        split
        · rfl
        · next hne => exact (min_eq_right (le_of_lt (hor.resolve_left hne))).symm
      · next hor =>
        rw [not_or, not_lt] at hor
        rw [if_neg hor.1, min_eq_left hor.2]
  · refine .inr ⟨m, Nat.lt_succ_of_lt hlt, hmention, hfirst, ?_⟩
    split
    · rw [if_neg (by omega)]
    · next hne =>
      rw [if_neg (by omega)]

theorem startsAt_other {c : Compiler} {v n : Nat} {start : Int} (h : StartsAt c v n start)
    (hm : ¬ Mentions c.instructions v n) : StartsAt c v (n + 1) start := by
  rcases h with ⟨hnone, rfl⟩ | ⟨m, hlt, hrest⟩
  · refine .inl ⟨fun s hs hmention => ?_, rfl⟩
    rcases Nat.lt_succ_iff_lt_or_eq.mp hs with hs | rfl
    · exact hnone s hs hmention
    · exact hm hmention
  · exact .inr ⟨m, Nat.lt_succ_of_lt hlt, hrest⟩

theorem endsAt_other {c : Compiler} {v n : Nat} {stop : WithTop Int} (h : EndsAt c v n stop)
    (hn : ∀ dest, c.instructions[n]? ≠ some (.assign dest (.var v))) : EndsAt c v (n + 1) stop := by
  rintro ⟨r, dest, hr, hload⟩
  rcases Nat.lt_succ_iff_lt_or_eq.mp hr with hr | rfl
  · exact h ⟨r, dest, hr, hload⟩
  · exact absurd hload (hn dest)

/-- The step lemma: a visit of the pass. -/
theorem varLiveness_visit {c : Compiler} {o : Operands} {i : Instruction} {n v : Nat}
    (hi : c.instructions[n]? = some i) (hs : StartsAt c v n (o.var v).liveStart)
    (he : EndsAt c v n (o.var v).liveEnd) :
    StartsAt c v (n + 1) ((varLiveness c n i o).var v).liveStart ∧
      EndsAt c v (n + 1) ((varLiveness c n i o).var v).liveEnd := by
  -- a jump mentions no variable, but moves the ends of those loaded since its label
  have hjump : ∀ l, (i = .jump l ∨ ∃ cond, i = .condJump cond l) →
      StartsAt c v (n + 1)
        ((adjustLiveEnds c.instructions (c.bytecode.labelPosition l) n o).var v).liveStart ∧
      EndsAt c v (n + 1)
        ((adjustLiveEnds c.instructions (c.bytecode.labelPosition l) n o).var v).liveEnd := by
    intro l hl
    have hno : ¬ Mentions c.instructions v n ∧
        ∀ dest, c.instructions[n]? ≠ some (.assign dest (.var v)) := by
      rw [Mentions, hi]
      rcases hl with rfl | ⟨cond, rfl⟩
      · exact ⟨fun hm => hm.elim (fun ⟨_, h⟩ => nomatch h) (fun ⟨_, h⟩ => nomatch h),
          fun _ h => nomatch h⟩
      · exact ⟨fun hm => hm.elim (fun ⟨_, h⟩ => nomatch h) (fun ⟨_, h⟩ => nomatch h),
          fun _ h => nomatch h⟩
    obtain ⟨hstart, hend⟩ := adjust_cases n
      ((c.instructions.take (n + 1)).drop (c.bytecode.labelPosition l)) o v
    have heq : adjustLiveEnds c.instructions (c.bytecode.labelPosition l) n o =
      ((c.instructions.take (n + 1)).drop (c.bytecode.labelPosition l)).foldl (adjustOne n) o := rfl
    rw [heq]
    refine ⟨hstart.symm ▸ startsAt_other hs hno.1, ?_⟩
    rcases hend with hend | ⟨hend, dest, hd⟩
    · rw [hend]
      exact endsAt_other he hno.2
    · -- a load between the label's old place and the jump
      intro _
      obtain ⟨k, hk⟩ := List.getElem?_of_mem hd
      rw [List.getElem?_drop] at hk
      have hlt := (List.getElem?_eq_some_iff.mp hk).1
      rw [List.length_take] at hlt
      rw [List.getElem?_take_of_lt (by omega)] at hk
      exact ⟨n, hend, .jump hi hl (Nat.le_add_right _ k) (by omega) hk⟩
  unfold varLiveness
  split
  · next dest m =>
    rw [var_modifyVar]
    split
    · next hvm =>
      subst hvm
      exact ⟨startsAt_mention hs (.inl ⟨dest, hi⟩), fun _ => ⟨n, rfl, .load hi⟩⟩
    · next hvm =>
      refine ⟨startsAt_other hs ?_, endsAt_other he fun dest h => ?_⟩
      · rw [Mentions, hi]
        rintro (⟨_, h⟩ | ⟨_, h⟩)
        · cases h
          exact hvm rfl
        · cases h
      · rw [hi] at h
        cases h
        exact hvm rfl
  · next m src =>
    -- a store may start a range; an end it leaves as it is
    have hnone : ∀ dest, c.instructions[n]? ≠ some (.assign dest (.var v)) := fun dest h => by
      rw [hi] at h
      cases h
    rw [var_modifyVar]
    split
    · next hvm =>
      subst hvm
      refine ⟨startsAt_mention hs (.inr ⟨src, hi⟩), endsAt_other (fun hload => ?_) hnone⟩
      obtain ⟨e, hend, hk⟩ := he hload
      refine ⟨e, ?_, hk⟩
      show (if (o.var v).liveEnd = ⊤ then _ else (o.var v).liveEnd) = _
      rw [hend, if_neg WithTop.coe_ne_top]
    · next hvm =>
      refine ⟨startsAt_other hs ?_, endsAt_other he hnone⟩
      rw [Mentions, hi]
      rintro (⟨_, h⟩ | ⟨_, h⟩)
      · cases h
      · cases h
        exact hvm rfl
  · exact hjump _ (.inl rfl)
  · exact hjump _ (.inr ⟨_, rfl⟩)
  · next hassign hstore _ _ =>
    refine ⟨startsAt_other hs ?_, endsAt_other he fun dest h => ?_⟩
    · rw [Mentions, hi]
      rintro (⟨dest, h⟩ | ⟨src, h⟩)
      · exact hassign dest v (Option.some.inj h)
      · exact hstore v src (Option.some.inj h)
    · rw [hi] at h
      exact hassign dest v (Option.some.inj h)

/-- The run lemma. -/
theorem varLiveness_ranges {c : Compiler} {code : List Instruction} {o : Operands}
    {obsolete : List Nat}
    (h : loop (fun count i o => .ok ⟨i, varLiveness c count i o, []⟩) 0 c.instructions c.operands =
      .ok (code, o, obsolete)) (v : Nat) :
    StartsAt c v c.instructions.length (o.var v).liveStart ∧
      EndsAt c v c.instructions.length (o.var v).liveEnd := by
  have hinv := loop_invariant
    (fun done rest o _ => done ++ rest = c.instructions ∧
      StartsAt c v done.length (o.var v).liveStart ∧ EndsAt c v done.length (o.var v).liveEnd)
    (fun {done i rest o obsolete x} h hx => by
      obtain ⟨hcode, hs, he⟩ := h
      cases hx
      have hi : c.instructions[done.length]? = some i := by rw [← hcode]; simp
      rw [List.length_append, List.length_singleton]
      exact ⟨by rw [List.append_assoc]; exact hcode, varLiveness_visit hi hs he⟩)
    ⟨rfl, .inl ⟨fun s hs => absurd hs (Nat.not_lt_zero s), rfl⟩,
      fun ⟨_, _, hr, _⟩ => absurd hr (Nat.not_lt_zero _)⟩ h
  rw [List.append_nil] at hinv
  obtain ⟨hcode, hs, he⟩ := hinv
  rw [hcode] at hs he
  exact ⟨hs, he⟩

theorem mentions_lt {code : List Instruction} {v s : Nat} (h : Mentions code v s) :
    s < code.length := by
  rcases h with ⟨_, h⟩ | ⟨_, h⟩
  · exact (List.getElem?_eq_some_iff.mp h).1
  · exact (List.getElem?_eq_some_iff.mp h).1

theorem start_le_iff {c : Compiler} {v p s : Nat} {start : Int}
    (h : StartsAt c v c.instructions.length start) (hs : Mentions c.instructions v s) :
    start ≤ p ↔ BegunBy c v p := by
  rcases h with ⟨hnone, -⟩ | ⟨m, -, hm, hfirst, rfl⟩
  · exact absurd hs (hnone s (mentions_lt hs))
  have hmention : (m : Int) ≤ p ↔ ∃ s, s ≤ p ∧ Mentions c.instructions v s :=
    ⟨fun hle => ⟨m, Int.ofNat_le.mp hle, hm⟩,
      fun ⟨s, hle, hs⟩ => Int.ofNat_le.mpr (Nat.le_trans (hfirst s hs) hle)⟩
  rw [BegunBy, ← hmention]
  split
  · next he => exact ⟨.inl, fun hor => hor.resolve_right fun hr => hr.1 he⟩
  · next hne =>
    omega

theorem le_stop_iff {c : Compiler} {v p r dest : Nat} {stop : WithTop Int}
    (h : EndsAt c v c.instructions.length stop)
    (hkept : ∀ e, KeptAlive c v e → ((e : Int) : WithTop Int) ≤ stop)
    (hr : c.instructions[r]? = some (.assign dest (.var v))) :
    ((p : Int) : WithTop Int) ≤ stop ↔ KeptUpTo c v p := by
  obtain ⟨e, rfl, he⟩ := h ⟨r, dest, (List.getElem?_eq_some_iff.mp hr).1, hr⟩
  constructor
  · exact fun hle => ⟨e, Int.ofNat_le.mp (WithTop.coe_le_coe.mp hle), he⟩
  · rintro ⟨e', hle, he'⟩
    exact (WithTop.coe_le_coe.mpr (Int.ofNat_le.mpr hle)).trans (hkept e' he')

/-! ### Paths -/

theorem toLoad_load {code : List Instruction} {v : Nat} {path : List Nat}
    (h : ToLoad code v path) : ∃ r dest : Nat, code[r]? = some (.assign dest (.var v)) := by
  induction h with
  | load hl => exact ⟨_, _, hl⟩
  | step _ _ _ _ ih => exact ih

theorem brings_load {code : List Instruction} {v : Nat} {path : List Nat}
    (h : Brings code v path) : ∃ r dest : Nat, code[r]? = some (.assign dest (.var v)) := by
  cases h with
  | initial hl => exact toLoad_load hl
  | stored _ _ hl => exact toLoad_load hl

theorem begunBy_mono {c : Compiler} {v p q : Nat} (h : BegunBy c v p) (hpq : p ≤ q) :
    BegunBy c v q := by
  rcases h with ⟨s, hs, hm⟩ | ⟨hne, hle⟩
  · exact .inl ⟨s, Nat.le_trans hs hpq, hm⟩
  · exact .inr ⟨hne, hle.trans (Int.ofNat_le.mpr hpq)⟩

/-- From a position on the path that is reached after the beginning of the interval,
the rest of the path stays in it: a step forward by the order of the list, a
step back by what is asked of it. -/
theorem spanned_rest {c : Compiler} (hc : Spanned c) {v : Nat} {rest : List Nat}
    (h : ToLoad c.instructions v rest) (before : List Nat)
    (hb : Brings c.instructions v (before ++ rest)) (hbegun : ∀ p ∈ rest.head?, BegunBy c v p) :
    ∀ p ∈ rest, BegunBy c v p ∧ KeptUpTo c v p := by
  induction h generalizing before with
  | @load p dest hl =>
    intro q hq
    cases List.mem_singleton.mp hq
    exact ⟨hbegun p rfl, p, Nat.le_refl p, .load hl⟩
  | @step p q i rest _ _ _ _ ih =>
    have hp := hbegun p rfl
    have hq : BegunBy c v q := by
      rcases Nat.lt_or_ge p q with hlt | hge
      · exact begunBy_mono hp hlt.le
      · exact (hc.back v before p q rest hge hb).1
    have hrest := ih (before ++ [p]) (by rwa [List.append_assoc])
      fun x hx => by cases hx; exact hq
    intro x hx
    rcases List.mem_cons.mp hx with rfl | hx
    · refine ⟨hp, ?_⟩
      rcases Nat.lt_or_ge x q with hlt | hge
      · obtain ⟨e, hle, he⟩ := (hrest q List.mem_cons_self).2
        exact ⟨e, hlt.le.trans hle, he⟩
      · exact (hc.back v before x q rest hge hb).2
    · exact hrest x hx

theorem spanned_path {c : Compiler} (hc : Spanned c) {v : Nat} {path : List Nat}
    (h : Brings c.instructions v path) : ∀ p ∈ path, BegunBy c v p ∧ KeptUpTo c v p := by
  cases id h with
  | @initial rest hl =>
    exact spanned_rest hc hl [] h fun p hp => by
      cases hp
      exact hc.initial v rest hl
  | @stored d src q rest hd _ hl =>
    have hbegun : BegunBy c v d := .inl ⟨d, Nat.le_refl d, .inr ⟨src, hd⟩⟩
    have hq : BegunBy c v q := by
      rcases Nat.lt_or_ge d q with hlt | hge
      · exact begunBy_mono hbegun hlt.le
      · exact (hc.back v [] d q rest hge h).1
    have hrest := spanned_rest hc hl [d] h fun x hx => by cases hx; exact hq
    intro x hx
    rcases List.mem_cons.mp hx with rfl | hx
    · refine ⟨hbegun, ?_⟩
      rcases Nat.lt_or_ge x q with hlt | hge
      · obtain ⟨e, hle, he⟩ := (hrest q List.mem_cons_self).2
        exact ⟨e, hlt.le.trans hle, he⟩
      · exact (hc.back v [] x q rest hge h).2
    · exact hrest x hx

end LiveRangesLemmas

open LiveRangesLemmas

/-- After a run of `VarLivenessOptimization`, on whatever code and whatever earlier
runs have left, the intervals cover all paths from definitions to uses if and
only if the initial values and the back edges are spanned. -/
theorem ranges_cover_iff {oc oc' : OptimizingCompiler} (h : oc.run .varLiveness = .ok oc') :
    RangesCover oc'.compiler.instructions oc'.compiler.operands ↔ Spanned oc.compiler := by
  obtain ⟨⟨code, o, obsolete⟩, hloop, hoc⟩ := bind_ok.mp h
  cases hoc
  obtain ⟨rfl, -, hkept⟩ := varLiveness_liveEnd hloop
  have hranges := varLiveness_ranges hloop
  have hin : ∀ {v path p}, Brings oc.compiler.instructions v path →
      ((o.var v).liveStart ≤ (p : Nat) ↔ BegunBy oc.compiler v p) ∧
        (((p : Int) : WithTop Int) ≤ (o.var v).liveEnd ↔ KeptUpTo oc.compiler v p) := by
    intro v path p hb
    obtain ⟨r, dest, hr⟩ := brings_load hb
    exact ⟨start_le_iff (hranges v).1 (.inl ⟨dest, hr⟩), le_stop_iff (hranges v).2 (hkept v) hr⟩
  constructor
  · intro hcover
    refine ⟨fun v rest hl => ?_, fun v before j t after _ hb => ?_⟩
    · exact (hin (.initial hl)).1.mp (hcover v _ (.initial hl) 0 List.mem_cons_self).1
    · have hj : j ∈ before ++ j :: t :: after := by simp
      have ht : t ∈ before ++ j :: t :: after := by simp
      exact ⟨(hin hb).1.mp (hcover v _ hb t ht).1, (hin hb).2.mp (hcover v _ hb j hj).2⟩
  · intro hc v path hb p hp
    obtain ⟨hbegun, hk⟩ := spanned_path hc hb p hp
    exact ⟨(hin hb).1.mpr hbegun, (hin hb).2.mpr hk⟩

/-- `f = fun() { c = true; while (c) { c = false; } };` -/
def waiting : Program :=
  .cons (.assignment (.name "f") (.function []
    (.cons (.assignment (.name "c") (.boolConst true))
    (.cons (.whileLoop (.lhs (.name "c"))
      (.cons (.assignment (.name "c") (.boolConst false)) .nil)) .nil)))) .nil

/-- `f = fun() { while (true) { y = x; x = 1; } };` -/
def mentionedLate : Program :=
  .cons (.assignment (.name "f") (.function []
    (.cons (.whileLoop (.boolConst true)
      (.cons (.assignment (.name "y") (.lhs (.name "x")))
      (.cons (.assignment (.name "x") (.intConst 1)) .nil))) .nil))) .nil

/-- The function in such a program. -/
def functionIn (prog : Program) : Function :=
  (Beaverc.compile prog).functions.headD {}

namespace LiveRangesLemmas

/-- The code after the run of the liveness pass behind the first `n` passes, and
where the interval of the first variable begins. -/
def measured (prog : Program) (n : Nat) : Option (List Instruction × Int) := do
  let c ← Compiler.compile .fresh (functionIn prog)
  let oc ← ((allPasses.take n).foldlM OptimizingCompiler.run ⟨c, []⟩).toOption
  let oc₁ ← (oc.run .varLiveness).toOption
  return (oc₁.compiler.instructions, (oc₁.compiler.operands.var 0).liveStart)

theorem stands_of_measured {prog : Program} {n : Nat} {x : List Instruction × Int}
    (h : measured prog n = some x) : ∃ oc oc', Stands .fresh (functionIn prog) n oc ∧
      oc.run .varLiveness = .ok oc' ∧ oc'.compiler.instructions = x.1 ∧
      (oc'.compiler.operands.var 0).liveStart = x.2 := by
  unfold measured at h
  obtain ⟨c, hcompile, h⟩ := Option.bind_eq_some_iff.mp h
  obtain ⟨oc, hoc, h⟩ := Option.bind_eq_some_iff.mp h
  obtain ⟨oc', hoc', h⟩ := Option.bind_eq_some_iff.mp h
  cases h
  exact ⟨oc, oc', ⟨c, hcompile, toOption_eq_some hoc⟩, toOption_eq_some hoc', rfl, rfl⟩

/-- The code of the function in `mentionedLate`. -/
def lateCode : List Instruction :=
  [.outputLabel 0, .callHelper .garbageCollect [], .assign 0 (.const (.boolean true)),
    .condJump 0 1, .jump 2, .outputLabel 1, .assign 1 (.var 0), .store (.var 1) 1,
    .assign 2 (.const (.integer 1)), .store (.var 0) 2, .jump 0, .outputLabel 2,
    .assign 3 (.const .none), .ret 3]

theorem measured_late : measured mentionedLate 7 = some (lateCode, 6) := by
  decide +kernel

/-- From the store at the end of the body back to the load at its beginning. -/
theorem brings_late : Brings lateCode 0 [9, 10, 0, 1, 2, 3, 5, 6] := by
  have hstore : lateCode[9]? = some (.store (.var 0) 2) := rfl
  refine .stored hstore (.next rfl rfl) ?_
  refine .step (i := .jump 0) rfl (fun h => nomatch h) (.jump (l := 0) rfl rfl) ?_
  refine .step (i := .outputLabel 0) rfl (fun h => nomatch h) (.next rfl rfl) ?_
  refine .step (i := .callHelper .garbageCollect []) rfl (fun h => nomatch h) (.next rfl rfl) ?_
  refine .step (i := .assign 0 (.const (.boolean true))) rfl (fun h => nomatch h) (.next rfl rfl) ?_
  refine .step (i := .condJump 0 1) rfl (fun h => nomatch h) (.jump (l := 1) rfl rfl) ?_
  refine .step (i := .outputLabel 1) rfl (fun h => nomatch h) (.next rfl rfl) ?_
  exact .load rfl

end LiveRangesLemmas

/-- The last run, before the registers are allocated. -/
theorem ranges_cover_iff_waiting : ∃ oc oc', Stands .fresh (functionIn waiting) 28 oc ∧
    oc.run .varLiveness = .ok oc' ∧
    (RangesCover oc'.compiler.instructions oc'.compiler.operands ↔ Spanned oc.compiler) := by
  have hsome : (measured waiting 28).isSome = true := by decide +kernel
  obtain ⟨x, hx⟩ := Option.isSome_iff_exists.mp hsome
  obtain ⟨oc, oc', hstands, hrun, -⟩ := stands_of_measured hx
  exact ⟨oc, oc', hstands, hrun, ranges_cover_iff hrun⟩

/-- In the first run already the interval of `x` begins in the middle of the body,
and the label to which the value of `x` is brought lies before it. -/
theorem ranges_not_cover : ∃ oc oc',
    SubFunction (Beaverc.compile mentionedLate) (functionIn mentionedLate) ∧
      Stands .fresh (functionIn mentionedLate) 7 oc ∧ allPasses[7]? = some .varLiveness ∧
      oc.run .varLiveness = .ok oc' ∧
      ¬ RangesCover oc'.compiler.instructions oc'.compiler.operands := by
  obtain ⟨oc, oc', hstands, hrun, hcode, hstart⟩ := stands_of_measured measured_late
  refine ⟨oc, oc', .step (.refl _) ?_, hstands, rfl, hrun, fun hcover => ?_⟩
  · have hfs : (Beaverc.compile mentionedLate).functions = [functionIn mentionedLate] := rfl
    rw [hfs]
    exact List.mem_singleton.mpr rfl
  · rw [hcode] at hcover
    have hlabel := (hcover 0 _ brings_late 0 (by decide)).1
    rw [hstart] at hlabel
    exact absurd hlabel (by decide)

end Beaverc.Ir
