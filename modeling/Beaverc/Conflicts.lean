import Beaverc.Bookkeeping
import Beaverc.StraightTemps
import Beaverc.TypedTemps

/-!
# Operands in one register

After the linear scan two operands that are alive together have different registers,
unless they are a variable and temps that are hinted with it: these take the
variable's register without becoming active. That is fine for a temp that the
variable has been loaded to, or that is about to be stored in it, but not for every
temp with the hint, and not when the register is given to another operand while such
a temp is alive: when the variable is spilled, or has ended before the temp.
-/

namespace Beaverc.Ir
open Process BookkeepingLemmas LinearScanLemmas Allocation ChangesLemmas DefinedTempsLemmas
  TypedTempsLemmas StraightTempsLemmas

/-! ## Lives -/

/-- What the scan reads of an operand. -/
def Operand.life (t : Operand) : Int × WithTop Int × Option Nat :=
  (t.liveStart, t.liveEnd, t.var?)

/-- The intervals have more than an endpoint in common. -/
structure Overlap (x y : Operand) : Prop where
  left : (x.liveStart : WithTop Int) < x.liveEnd
  right : (y.liveStart : WithTop Int) < y.liveEnd
  before : (x.liveStart : WithTop Int) < y.liveEnd
  after : (y.liveStart : WithTop Int) < x.liveEnd

/-- Whether an instruction reads or writes a variable. -/
def Instruction.accesses (v : Nat) : Instruction → Bool
  | .assign _ (.var n) | .forceLoad n | .store (.var n) _ => n = v
  | _ => false

/-- The temp is loaded from the variable, and nothing is stored there before the
last use of the temp. -/
def Loaded (code : List Instruction) (o : Operands) (t v : Nat) : Prop :=
  ∃ p : Nat, code[p]? = some (.assign t (.var v)) ∧
    ∀ (q : Nat) src, p < q → ((q : Int) : WithTop Int) < (o.temp t).liveEnd →
      code[q]? ≠ some (.store (.var v) src)

/-- The temp is about to be stored in the variable, and there is no access to it
in between. -/
def AboutToStore (code : List Instruction) (o : Operands) (t v : Nat) : Prop :=
  ∃ q : Nat, code[q]? = some (.store (.var v) t) ∧
    ∀ (p : Nat) i, (o.temp t).liveStart < p → p < q → code[p]? = some i →
      i.accesses v = false

/-- In runs of the code from where the variable is loaded to the temp, the two have the
same value up to the end of the temp's life. -/
def KeepsValue (code : List Instruction) (liveEnd : WithTop Int) (t v : Nat) : Prop :=
  ∃ p : Nat, code[p]? = some (.assign t (.var v)) ∧
    ∀ (env : Request × World → Value × World → Prop) (n : Nat) (s s' : Activation × World)
      (tr : List (Label Event (Request × World) (Value × World))),
      Run Activation.move env
        (fun s => p ≤ s.1.ip ∧ ((s.1.ip : Int) : WithTop Int) < liveEnd) n s tr s' →
      s.1.code = code → s.1.ip = p → s'.1.ip = p ∨ s'.1.temps t = s'.1.locals[v]?

/-- The operand is the variable, or a temp that it is loaded to, in the sense of
`loaded`. -/
def Item.HasValueOf (loaded : Nat → Nat → Prop) (v : Nat) (x : Item) : Prop :=
  x = .var v ∨ ∃ t, x = .temp t ∧ loaded t v

/-- The two operands have the value of one variable, or one is about to be stored in
the other. -/
def HoldAlike (loaded : Nat → Nat → Prop) (code : List Instruction) (o : Operands)
    (x y : Item) : Prop :=
  ∃ v, x.HasValueOf loaded v ∧ y.HasValueOf loaded v ∨
    (∃ t, x = .temp t ∧ y = .var v ∧ AboutToStore code o t v) ∨
    ∃ t, y = .temp t ∧ x = .var v ∧ AboutToStore code o t v

/-- By the code, the two operands hold the same value. -/
def SameValue (code : List Instruction) (o : Operands) (x y : Item) : Prop :=
  HoldAlike (Loaded code o) code o x y

/-- Operands that are alive together in one register hold the same value. -/
def ConflictFree (code : List Instruction) (o : Operands) : Prop :=
  ∀ x y r, x ≠ y → (x.operand o).reg = some r → (y.operand o).reg = some r →
    Overlap (x.operand o) (y.operand o) → SameValue code o x y

/-- The operand is written by `p` and still to be read. -/
def Operand.AliveAt (t : Operand) (p : Int) : Prop :=
  t.liveStart ≤ p ∧ (p : WithTop Int) < t.liveEnd

/-- Wherever an operand is written, the others in its register that are still to be read
hold the same value in all runs. -/
def NothingDestroyed (code : List Instruction) (o : Operands) : Prop :=
  ∀ x y r p, x ≠ y → (x.operand o).reg = some r → (y.operand o).reg = some r →
    (x.operand o).AliveAt p → (y.operand o).AliveAt p →
    HoldAlike (fun t v => KeepsValue code (o.temp t).liveEnd t v) code o x y

/-- The operand is a temp that is hinted with a variable. -/
def Item.Hinted (o : Operands) (y : Item) : Prop :=
  ∃ t v, y = .temp t ∧ (o.temp t).var? = some v

/-- The operand may be given the register, in view of those of the operands `among`
that have it: where their lives overlap they hold the same value. -/
def Allocation.Joins (code : List Instruction) (s : Allocation) (among : Item → Prop) (x : Item)
    (r : Reg) : Prop :=
  ∀ y, y ≠ x → among y → (y.operand s.operands).reg = some r →
    Overlap (x.operand s.operands) (y.operand s.operands) → SameValue code s.operands x y

/-- What is asked of the step at a place. Where a temp takes the register of its
variable, all that have the register count; where a register is allocated, or taken
from the active operand that ends last, only the temps that are hinted with a
variable do, since they may have it without being active. -/
def Place.Fits (code : List Instruction) (s : Allocation) : Place → Prop
  | .expired x _ => ∀ r, s.sharedReg x = some r → s.Joins code (fun _ => True) x r
  | .allocate x _ => ∀ r s', s.allocateReg x = .ok (r, s') →
      s.Joins code (Item.Hinted s.operands) x r
  | .spill x _ => ∀ w r, s.active.getLast? = some w → (w.operand s.operands).reg = some r →
      (x.operand s.operands).liveEnd < (w.operand s.operands).liveEnd →
      s.Joins code (fun y => y ≠ w ∧ y.Hinted s.operands) x r
  | _ => True

namespace ConflictsLemmas

/-! ### What the scan leaves -/

theorem life_modifyTemp {o : Operands} {n : Nat} {f : Temp → Temp}
    (hf : ∀ t, (f t).life = t.life) (y : Item) :
    (y.operand (o.modifyTemp n f)).life = (y.operand o).life := by
  rw [operand_modifyTemp]
  split
  · next h => rw [h]; exact hf _
  · rfl

theorem life_modifyVar {o : Operands} {n : Nat} {f : Var → Var}
    (hf : ∀ v, (f v).life = v.life) (y : Item) :
    (y.operand (o.modifyVar n f)).life = (y.operand o).life := by
  rw [operand_modifyVar]
  split
  · next h => rw [h]; exact hf _
  · rfl

theorem life_setReg (x y : Item) (r : Option Reg) (o : Operands) :
    (y.operand (x.setReg r o)).life = (y.operand o).life := by
  cases x with
  | var n =>
    rw [Item.setReg]
    refine life_modifyVar ?_ y
    exact fun _ => rfl
  | temp n =>
    rw [Item.setReg]
    refine life_modifyTemp ?_ y
    exact fun _ => rfl

theorem life_leaveReg (x y : Item) (r : Reg) (o : Operands) :
    (y.operand (leaveReg x r o)).life = (y.operand o).life := by
  unfold leaveReg
  split
  · rfl
  · split
    · refine (life_modifyVar ?_ y).trans (life_modifyTemp ?_ y)
      · exact fun _ => rfl
      · exact fun _ => rfl
    · rfl

theorem life_shareReg (x y : Item) (r : Reg) (s : Allocation) :
    (y.operand (s.shareReg x r).operands).life = (y.operand s.operands).life := by
  cases x with
  | var n => rfl
  | temp n =>
    show (y.operand (s.operands.modifyTemp n fun t =>
      { t with reg := some r, sharedReg := true })).life = _
    refine life_modifyTemp ?_ y
    exact fun _ => rfl

theorem overlap_congr {x x' y y' : Operand} (hx : x'.life = x.life) (hy : y'.life = y.life)
    (h : Overlap x' y') : Overlap x y := by
  obtain ⟨hxs, hx⟩ := Prod.mk.inj hx
  obtain ⟨hxe, -⟩ := Prod.mk.inj hx
  obtain ⟨hys, hy⟩ := Prod.mk.inj hy
  obtain ⟨hye, -⟩ := Prod.mk.inj hy
  obtain ⟨h1, h2, h3, h4⟩ := h
  rw [hxs, hxe] at h1
  rw [hys, hye] at h2
  rw [hxs, hye] at h3
  rw [hys, hxe] at h4
  exact ⟨h1, h2, h3, h4⟩

theorem loaded_congr {code : List Instruction} {o o' : Operands} {t v : Nat}
    (h : (o'.temp t).life = (o.temp t).life) (hl : Loaded code o t v) : Loaded code o' t v := by
  have hend : (o'.temp t).liveEnd = (o.temp t).liveEnd := congrArg (fun l => l.2.1) h
  obtain ⟨p, hp, hall⟩ := hl
  exact ⟨p, hp, fun q src hq hlt => hall q src hq (hend ▸ hlt)⟩

theorem aboutToStore_congr {code : List Instruction} {o o' : Operands} {t v : Nat}
    (h : (o'.temp t).life = (o.temp t).life) (hs : AboutToStore code o t v) :
    AboutToStore code o' t v := by
  have hstart : (o'.temp t).liveStart = (o.temp t).liveStart := congrArg (fun l => l.1) h
  obtain ⟨q, hq, hall⟩ := hs
  exact ⟨q, hq, fun p i hlt => hall p i (hstart ▸ hlt)⟩

theorem sameValue_congr {code : List Instruction} {o o' : Operands}
    (h : ∀ x : Item, (x.operand o').life = (x.operand o).life) {y z : Item}
    (hs : SameValue code o y z) : SameValue code o' y z := by
  have hvalue {v : Nat} {x : Item} (hx : x.HasValueOf (Loaded code o) v) :
      x.HasValueOf (Loaded code o') v := by
    refine hx.imp_right ?_
    rintro ⟨t, rfl, hl⟩
    exact ⟨t, rfl, loaded_congr (h (.temp t)) hl⟩
  have hstore {t v : Nat} : AboutToStore code o t v → AboutToStore code o' t v :=
    aboutToStore_congr (h (.temp t))
  obtain ⟨v, ⟨hy, hz⟩ | ⟨t, hy, hz, ht⟩ | ⟨t, hz, hy, ht⟩⟩ := hs
  · exact ⟨v, .inl ⟨hvalue hy, hvalue hz⟩⟩
  · exact ⟨v, .inr (.inl ⟨t, hy, hz, hstore ht⟩)⟩
  · exact ⟨v, .inr (.inr ⟨t, hz, hy, hstore ht⟩)⟩

theorem sameValue_symm {code : List Instruction} {o : Operands} {y z : Item}
    (h : SameValue code o y z) : SameValue code o z y := by
  obtain ⟨v, ⟨hy, hz⟩ | hyz | hzy⟩ := h
  · exact ⟨v, .inl ⟨hz, hy⟩⟩
  · exact ⟨v, .inr (.inr hyz)⟩
  · exact ⟨v, .inr (.inl hzy)⟩

theorem hinted_congr {o o' : Operands} (h : ∀ x : Item, (x.operand o').life = (x.operand o).life)
    {y : Item} (hy : y.Hinted o) : y.Hinted o' := by
  obtain ⟨t, v, rfl, hv⟩ := hy
  exact ⟨t, v, rfl, (congrArg (fun l => l.2.2) (h (.temp t))).trans hv⟩

/-- What a step asks, by the operands before the scan. -/
theorem joins_of {code : List Instruction} {o : Operands} {s : Allocation}
    (h : ∀ x : Item, (x.operand s.operands).life = (x.operand o).life) {among : Item → Prop}
    {x : Item} {r : Reg} (hj : s.Joins code among x r) {y : Item} (hyx : y ≠ x) (hy : among y)
    (hr : (y.operand s.operands).reg = some r) (ho : Overlap (x.operand o) (y.operand o)) :
    SameValue code o x y := by
  have hback (x : Item) : (x.operand o).life = (x.operand s.operands).life := (h x).symm
  exact sameValue_congr hback (hj y hyx hy hr (overlap_congr (hback x) (hback y) ho))

/-! ### The order of the operands -/

theorem sorted_multisetInsert {α : Type} (key : α → Int) (a : α) {s : List α}
    (h : s.Pairwise fun b c => key b ≤ key c) :
    (multisetInsert key a s).Pairwise fun b c => key b ≤ key c := by
  unfold multisetInsert
  induction h with
  | nil => exact List.pairwise_singleton _ a
  | @cons b s hb hs ih =>
    rw [List.orderedInsert]
    split
    · next hlt =>
      refine .cons (fun c hc => ?_) (.cons hb hs)
      rcases List.mem_cons.mp hc with rfl | hc
      · exact Int.le_of_lt hlt
      · exact Int.le_trans (Int.le_of_lt hlt) (hb c hc)
    · next hge =>
      refine .cons (fun c hc => ?_) ih
      rcases (List.mem_orderedInsert _).mp hc with rfl | hc
      · exact Int.not_lt.mp hge
      · exact hb c hc

theorem sorted_pairwise (c : Compiler) : c.sorted.Pairwise fun x y =>
    (x.operand c.operands).liveStart ≤ (y.operand c.operands).liveStart := by
  have hfold (l acc : List Item) (h : acc.Pairwise fun x y =>
      (x.operand c.operands).liveStart ≤ (y.operand c.operands).liveStart) :
      (l.foldl (fun s x => multisetInsert (fun y => (y.operand c.operands).liveStart) x s)
        acc).Pairwise fun x y =>
        (x.operand c.operands).liveStart ≤ (y.operand c.operands).liveStart := by
    induction l generalizing acc with
    | nil => exact h
    | cons a l ih => exact ih _ (sorted_multisetInsert _ a h)
  exact hfold _ [] .nil

/-! ### The invariant -/

/-- The operand is not alive any more when those that are to come begin. -/
def Done (c : Compiler) (rest : List Item) (y : Item) : Prop :=
  ∀ x ∈ rest, (y.operand c.operands).liveEnd ≤ ((x.operand c.operands).liveStart : WithTop Int)

/-- Which operands have registers when the operands `rest` are to come: but for the
hinted temps, those that are not done are active. -/
structure Placed (c : Compiler) (rest : List Item) (s : Allocation) : Prop where
  sorted : rest.Pairwise fun x y =>
    (x.operand c.operands).liveStart ≤ (y.operand c.operands).liveStart
  unplaced : ∀ x ∈ rest, (x.operand s.operands).reg = none
  free : ∀ (y : Item) r, (y.operand s.operands).reg = some r → r ∉ s.inUse →
    ¬ Done c rest y → y.Hinted c.operands
  held : ∀ w ∈ s.active, ∀ y : Item,
    (y.operand s.operands).reg = (w.operand s.operands).reg → ¬ Done c rest y →
    y = w ∨ y.Hinted c.operands
  apart : ∀ (y z : Item) r, y ≠ z → (y.operand s.operands).reg = some r →
    (z.operand s.operands).reg = some r →
    Overlap (y.operand c.operands) (z.operand c.operands) →
    SameValue c.instructions c.operands y z

variable {c : Compiler} {s : Allocation} {x : Item} {rest : List Item}

theorem overlap_symm {a b : Operand} (h : Overlap a b) : Overlap b a :=
  ⟨h.right, h.left, h.after, h.before⟩

/-- The lives of placed operands that are not done are around the start of the next. -/
theorem not_done_head (h : Placed c (x :: rest) s) {y : Item} (hy : ¬ Done c (x :: rest) y) :
    ((x.operand c.operands).liveStart : WithTop Int) < (y.operand c.operands).liveEnd := by
  by_contra hle
  refine hy fun z hz => (not_lt.mp hle).trans ?_
  rcases List.mem_cons.mp hz with rfl | hz
  · exact le_refl _
  · exact WithTop.coe_le_coe.mpr (List.rel_of_pairwise_cons h.sorted hz)

theorem done_tail {y : Item} (h : Done c (x :: rest) y) : Done c rest y :=
  fun z hz => h z (List.mem_cons_of_mem x hz)

theorem done_of_le (h : Placed c (x :: rest) s) {y : Item}
    (hle : (y.operand c.operands).liveEnd ≤ ((x.operand c.operands).liveStart : WithTop Int)) :
    Done c (x :: rest) y := by
  by_contra hd
  exact absurd (not_done_head h hd) (not_lt.mpr hle)

theorem done_not_overlap {y : Item} (h : Done c (x :: rest) y) :
    ¬ Overlap (x.operand c.operands) (y.operand c.operands) :=
  fun ho => absurd ho.before (not_lt.mpr (h x List.mem_cons_self))

/-- Nothing but the registers and the operands to come matters. -/
theorem placed_next {s' : Allocation} (h : Placed c (x :: rest) s)
    (hreg : ∀ y : Item, y ≠ x →
      (y.operand s'.operands).reg = none ∨
        (y.operand s'.operands).reg = (y.operand s.operands).reg)
    (hx : x ∉ rest)
    (hfree : ∀ (y : Item) r, (y.operand s'.operands).reg = some r → r ∉ s'.inUse →
      ¬ Done c rest y → y.Hinted c.operands)
    (hheld : ∀ w ∈ s'.active, ∀ y : Item,
      (y.operand s'.operands).reg = (w.operand s'.operands).reg → ¬ Done c rest y →
      y = w ∨ y.Hinted c.operands)
    (hapart : ∀ (z : Item) r, z ≠ x → (x.operand s'.operands).reg = some r →
      (z.operand s'.operands).reg = some r →
      Overlap (x.operand c.operands) (z.operand c.operands) →
      SameValue c.instructions c.operands x z) :
    Placed c rest s' := by
  have hne {y : Item} (hy : y ∈ rest) : y ≠ x := fun he => hx (he ▸ hy)
  have hold {y : Item} {r : Reg} (hy : y ≠ x) (h : (y.operand s'.operands).reg = some r) :
      (y.operand s.operands).reg = some r := by
    rcases hreg y hy with hn | hs
    · cases h.symm.trans hn
    · exact hs ▸ h
  refine ⟨(List.pairwise_cons.mp h.sorted).2, fun y hy => ?_, hfree, hheld,
    fun y z r hyz hy hz ho => ?_⟩
  · have hnone := h.unplaced y (List.mem_cons_of_mem x hy)
    rcases hreg y (hne hy) with hn | hs
    · exact hn
    · exact hs.trans hnone
  · by_cases hyx : y = x
    · subst hyx
      exact hapart z r (Ne.symm hyz) hy hz ho
    · by_cases hzx : z = x
      · subst hzx
        exact sameValue_symm (hapart y r hyz hz hy (overlap_symm ho))
      · exact h.apart y z r hyz (hold hyx hy) (hold hzx hz) ho

/-- What holds at a place. -/
def PlacedAt (c : Compiler) (p : Place) (s : Allocation) : Prop :=
  Placed c (pending p) s

/-- An active operand is done, so the register that it gives back is free. -/
theorem placed_deallocate (h : Placed c (x :: rest) s) {w : Item}
    {tail : List Item} (hactive : s.active = w :: tail)
    (hge : ¬ ((x.operand c.operands).liveStart : WithTop Int) < (w.operand c.operands).liveEnd)
    {s' : Allocation} (hs' : s.deallocateReg w = .ok s') :
    Placed c (x :: rest) { s' with active := tail } := by
  unfold deallocateReg at hs'
  split at hs'
  · next q hq =>
    cases hs'
    have hreg (y : Item) : (y.operand (leaveReg w q s.operands)).reg = (y.operand s.operands).reg :=
      reg_leaveReg ..
    refine ⟨h.sorted, fun y hy => (hreg y).trans (h.unplaced y hy), fun y r hr hn hd => ?_,
      fun z hz y hy => ?_,
      fun y z r hyz hy hz => h.apart y z r hyz (hreg y ▸ hy) (hreg z ▸ hz)⟩
    · rw [hreg] at hr
      by_cases hrq : r = q
      · subst hrq
        have hw : w ∈ s.active := hactive ▸ List.mem_cons_self
        refine (h.held w hw y (hr.trans hq.symm) hd).resolve_left fun hyw => hd ?_
        exact done_of_le h (hyw ▸ not_lt.mp hge)
      · exact h.free y r hr (fun hm => hn ((List.mem_erase_of_ne hrq).mpr hm)) hd
    · rw [hreg, hreg] at hy
      exact h.held z (hactive ▸ List.mem_cons_of_mem w hz) y hy
  · cases hs'

/-- A temp takes the register of its variable. -/
theorem placed_share (hlife : ∀ x : Item, (x.operand s.operands).life = (x.operand c.operands).life)
    (h : Placed c (x :: rest) s) (hx : x ∉ rest) (hnot : x ∉ s.active)
    (hfits : (Place.expired x rest).Fits c.instructions s) {r : Reg} (hr : s.sharedReg x = some r) :
    Placed c rest (s.shareReg x r) := by
  have hjoins := hfits r hr
  unfold sharedReg at hr
  split at hr
  · cases hr
  · next t =>
    obtain ⟨v, hv, hreg⟩ := Option.bind_eq_some_iff.mp hr
    have hhinted : Item.Hinted c.operands (.temp t) :=
      ⟨t, v, rfl, (congrArg (fun l => l.2.2) (hlife (.temp t))).symm.trans hv⟩
    have hself : (Item.operand (s.shareReg (.temp t) r).operands (.temp t)).reg = some r := by
      show (Item.operand (s.operands.modifyTemp t fun u =>
        { u with reg := some r, sharedReg := true }) (.temp t)).reg = some r
      rw [operand_modifyTemp, if_pos rfl]
    have hother {y : Item} (hy : y ≠ .temp t) :
        (y.operand (s.shareReg (.temp t) r).operands).reg = (y.operand s.operands).reg :=
      reg_shareReg hy r s
    refine placed_next h (fun y hy => .inr (hother hy)) hx
      (fun y q hq hn hd => ?_) (fun w hw y hy hd => ?_) fun z q hz hxq hzq ho => ?_
    · by_cases hyt : y = .temp t
      · exact hyt ▸ hhinted
      · exact h.free y q (hother hyt ▸ hq) hn fun hd' => hd (done_tail hd')
    · have hwt : w ≠ .temp t := fun he => hnot (he ▸ hw)
      by_cases hyt : y = .temp t
      · exact .inr (hyt ▸ hhinted)
      · rw [hother hwt, hother hyt] at hy
        exact h.held w hw y hy fun hd' => hd (done_tail hd')
    · cases hself.symm.trans hxq
      exact joins_of hlife hjoins hz trivial (hother hz ▸ hzq) ho

theorem allocated_self (x : Item) (r : Reg) (s : Allocation) :
    (x.operand (({ s with operands := x.setReg (some r) s.operands } :
      Allocation).activate x).operands).reg = some r := by
  rw [activate, reg_setReg, if_pos rfl]

theorem allocated_other {x y : Item} (hy : y ≠ x) (r : Reg) (s : Allocation) :
    (y.operand (({ s with operands := x.setReg (some r) s.operands } :
      Allocation).activate x).operands).reg = (y.operand s.operands).reg := by
  rw [activate, reg_setReg, if_neg hy]

/-- An operand gets a register that is free. -/
theorem placed_allocated
    (hlife : ∀ x : Item, (x.operand s.operands).life = (x.operand c.operands).life)
    (h : Placed c (x :: rest) s) (hx : x ∉ rest) (hholds : s.Holds s.active)
    {r : Reg} {s' : Allocation} (hr : r ∉ s.inUse) (hinUse : s'.inUse = r :: s.inUse)
    (hactive : s'.active = s.active) (hoperands : s'.operands = s.operands)
    (hjoins : s.Joins c.instructions (Item.Hinted s.operands) x r) :
    Placed c rest ({ s' with operands := x.setReg (some r) s'.operands }.activate x) := by
  have hself := allocated_self x r s'
  have hother {y : Item} (hy : y ≠ x) := (allocated_other hy r s').trans
    (congrArg (fun o => (y.operand o).reg) hoperands)
  refine placed_next h (fun y hy => .inr (hother hy)) hx
    (fun y q hq hn hd => ?_) (fun w hw y hy hd => ?_) fun z q hz hxq hzq ho => ?_
  · have hn' : q ∉ r :: s.inUse := hinUse ▸ hn
    by_cases hyx : y = x
    · subst hyx
      cases hself.symm.trans hq
      exact absurd List.mem_cons_self hn'
    · exact h.free y q ((hother hyx).symm.trans hq)
        (fun hm => hn' (List.mem_cons_of_mem r hm)) fun hd' => hd (done_tail hd')
  · by_cases hwx : w = x
    · subst hwx
      by_cases hyw : y = w
      · exact .inl hyw
      · exact .inr (h.free y r ((hother hyw).symm.trans (hy.trans hself)) hr fun hd' =>
          hd (done_tail hd'))
    · have hw' : w ∈ s.active := by
        have hm := (mem_activate.mp hw).resolve_left hwx
        exact hactive ▸ hm
      by_cases hyx : y = x
      · subst hyx
        obtain ⟨q, hq, hwq⟩ := hholds.hasReg w hw'
        cases hself.symm.trans (hy.trans ((hother hwx).trans hwq))
        exact absurd hq hr
      · exact h.held w hw' y ((hother hyx).symm.trans (hy.trans (hother hwx))) fun hd' =>
          hd (done_tail hd')
  · cases hself.symm.trans hxq
    have hzr := (hother hz).symm.trans hzq
    have hhinted := h.free z r hzr hr fun hd => done_not_overlap hd ho
    exact joins_of hlife hjoins hz (hinted_congr hlife hhinted) hzr ho

/-- What a spill does to the registers: the operand takes the register of the active one
that ends last, or goes without. -/
inductive Spilled (s : Allocation) (x : Item) (s' : Allocation) : Prop
  | taken (w : Item) (last : s.active.getLast? = some w)
      (before : (x.operand s.operands).liveEnd < (w.operand s.operands).liveEnd)
      (self : (x.operand s'.operands).reg = (w.operand s.operands).reg)
      (spilled : (w.operand s'.operands).reg = none)
      (other : ∀ y : Item, y ≠ x → y ≠ w →
        (y.operand s'.operands).reg = (y.operand s.operands).reg)
      (active : ∀ z ∈ s'.active, z = x ∨ z ∈ s.active ∧ z ≠ w)
  | without (late : ∀ w, s.active.getLast? = some w →
        ¬ (x.operand s.operands).liveEnd < (w.operand s.operands).liveEnd)
      (self : (x.operand s'.operands).reg = none)
      (other : ∀ y : Item, y ≠ x → (y.operand s'.operands).reg = (y.operand s.operands).reg)
      (active : s'.active = s.active)

theorem spill_cases (hnot : x ∉ s.active) {s' : Allocation} (h : s.spillAtInterval x = .ok s') :
    Spilled s x s' := by
  unfold spillAtInterval at h
  split at h
  · cases h
  · next w hlast =>
    dsimp only at h
    split at h
    · next hlt =>
      cases h
      have hxw : x ≠ w := fun he => hnot (he ▸ List.mem_of_getLast? hlast)
      refine .taken w hlast hlt ?_ ?_ (fun y hyx hyw => ?_) fun z hz => ?_
      · rw [activate, reg_setReg, if_neg hxw, reg_setReg, if_pos rfl]
      · rw [activate, reg_setReg, if_pos rfl]
      · rw [activate, reg_setReg, if_neg hyw, reg_setReg, if_neg hyx]
      · refine (mem_activate.mp hz).imp_right fun hm => ?_
        obtain ⟨hm, he⟩ := List.mem_filter.mp hm
        refine ⟨hm, fun hzw => ?_⟩
        rw [hzw] at he
        exact of_decide_eq_true he rfl
    · next hge =>
      cases h
      refine .without (fun z hz => ?_) ?_ (fun y hy => ?_) rfl
      · cases hlast.symm.trans hz
        exact hge
      · rw [reg_setReg, if_pos rfl]
      · rw [reg_setReg, if_neg hy]

/-- An operand takes the register of the active one that ends last, or goes without. -/
theorem placed_spilled
    (hlife : ∀ x : Item, (x.operand s.operands).life = (x.operand c.operands).life)
    (h : Placed c (x :: rest) s) (hx : x ∉ rest) (hnot : x ∉ s.active) (hholds : s.Holds s.active)
    (hfits : (Place.spill x rest).Fits c.instructions s) {s' : Allocation}
    (hs' : s.spillAtInterval x = .ok s') : Placed c rest s' := by
  have hinUse := spill_inUse hs'
  cases spill_cases hnot hs' with
  | taken w hlast hlt hself hspilled hother hactive =>
    have hw : w ∈ s.active := List.mem_of_getLast? hlast
    obtain ⟨r, hr, hwr⟩ := hholds.hasReg w hw
    -- but for the hinted temps, only the spilled operand had the register
    have hhinted {y : Item} (hyw : y ≠ w)
        (hy : (y.operand s.operands).reg = (w.operand s.operands).reg)
        (hd : ¬ Done c (x :: rest) y) : y.Hinted c.operands :=
      (h.held w hw y hy hd).resolve_left hyw
    refine placed_next h (fun y hy => ?_) hx (fun y q hq hn hd => ?_) (fun z hz y hy hd => ?_)
      fun z q hz hxq hzq ho => ?_
    · by_cases hyw : y = w
      · exact .inl (hyw ▸ hspilled)
      · exact .inr (hother y hy hyw)
    · rw [hinUse] at hn
      by_cases hyx : y = x
      · subst hyx
        cases (hself.trans hwr).symm.trans hq
        exact absurd hr hn
      · by_cases hyw : y = w
        · subst hyw
          cases hspilled.symm.trans hq
        · exact h.free y q ((hother y hyx hyw).symm.trans hq) hn fun hd' => hd (done_tail hd')
    -- the spilled operand has no register, and no active one has the register it had
    · rcases hactive z hz with rfl | ⟨hm, hzw⟩
      · by_cases hyz : y = z
        · exact .inl hyz
        · by_cases hyw : y = w
          · subst hyw
            cases hspilled.symm.trans (hy.trans (hself.trans hwr))
          · exact .inr (hhinted hyw ((hother y hyz hyw).symm.trans (hy.trans hself)) fun hd' =>
              hd (done_tail hd'))
      · have hzx : z ≠ x := fun he => hnot (he ▸ hm)
        have hzreg := hother z hzx hzw
        by_cases hyx : y = x
        · subst hyx
          have hzr : (z.operand s.operands).reg = (w.operand s.operands).reg :=
            hzreg.symm.trans (hy.symm.trans hself)
          exact absurd (hholds.distinct z hm w hw hzr) hzw
        · by_cases hyw : y = w
          · subst hyw
            obtain ⟨q, -, hzq⟩ := hholds.hasReg z hm
            cases hspilled.symm.trans (hy.trans (hzreg.trans hzq))
          · exact h.held z hm y ((hother y hyx hyw).symm.trans (hy.trans hzreg)) fun hd' =>
              hd (done_tail hd')
    · by_cases hzw : z = w
      · subst hzw
        cases hspilled.symm.trans hzq
      · have hzreg := (hother z hz hzw).symm.trans (hzq.trans (hxq.symm.trans hself))
        have hh := hhinted hzw hzreg fun hd => done_not_overlap hd ho
        exact joins_of hlife (hfits w r hlast hwr hlt) hz ⟨hzw, hinted_congr hlife hh⟩
          (hzreg.trans hwr) ho
  | without _ hself hother hactive =>
    have hsame (y : Item) : (y.operand s'.operands).reg = (y.operand s.operands).reg := by
      by_cases hyx : y = x
      · rw [hyx, hself, h.unplaced x List.mem_cons_self]
      · exact hother y hyx
    refine placed_next h (fun y _ => .inr (hsame y)) hx (fun y q hq hn hd => ?_)
      (fun z hz y hy hd => ?_) fun z q hz hxq hzq ho => ?_
    · rw [hinUse] at hn
      exact h.free y q ((hsame y).symm.trans hq) hn fun hd' => hd (done_tail hd')
    · exact h.held z (hactive ▸ hz) y ((hsame y).symm.trans (hy.trans (hsame z))) fun hd' =>
        hd (done_tail hd')
    · cases hself.symm.trans hxq

/-- The scan leaves the lives of the operands as they are. -/
theorem arrives_life {p : Place} (h : c.Arrives p s) (y : Item) :
    (y.operand s.operands).life = (y.operand c.operands).life := by
  induction h with
  | start => rfl
  | turn _ ih => exact ih
  | deallocate _ _ _ hs' ih =>
    unfold deallocateReg at hs'
    split at hs'
    · cases hs'
      exact (life_leaveReg ..).trans ih
    · cases hs'
  | expired _ _ ih => exact ih
  | share _ _ ih => exact (life_shareReg ..).trans ih
  | allocate _ _ _ ih => exact ih
  | spill _ _ _ ih => exact ih
  | allocated _ hs' ih =>
    unfold allocateReg at hs'
    split at hs'
    · cases hs'
      exact (life_setReg ..).trans ih
    · cases hs'
  | spilled _ hs' ih =>
    unfold spillAtInterval at hs'
    split at hs'
    · cases hs'
    · dsimp only at hs'
      split at hs'
      · cases hs'
        exact (life_setReg ..).trans ((life_setReg ..).trans ih)
      · cases hs'
        exact (life_setReg ..).trans ih

/-- The step lemma, one case for each way on. -/
theorem arrives_placed (hv : c.vars.Nodup) (hreg : ∀ x : Item, (x.operand c.operands).reg = none)
    (hfits : ∀ p s, c.Arrives p s → p.Fits c.instructions s) {p : Place}
    (h : c.Arrives p s) : PlacedAt c p s := by
  have hkept {p : Place} {s : Allocation} (h : c.Arrives p s) : Kept p s :=
    arrives_kept (sorted_nodup hv) h
  induction h with
  | start =>
    exact ⟨sorted_pairwise c, fun x _ => hreg x,
      fun y r hr => absurd ((hreg y).symm.trans hr) nofun, nofun,
      fun y z r _ hr => absurd ((hreg y).symm.trans hr) nofun⟩
  | turn _ ih => exact ih
  | @deallocate x w rest tail s s' harrives hactive hge hs' ih =>
    refine placed_deallocate ih hactive ?_ hs'
    have hlifex := arrives_life harrives x
    have hstart : (x.operand s.operands).liveStart = (x.operand c.operands).liveStart :=
      congrArg (fun l => l.1) hlifex
    have hend : (w.operand s.operands).liveEnd = (w.operand c.operands).liveEnd :=
      congrArg (fun l => l.2.1) (arrives_life harrives w)
    rwa [hstart, hend] at hge
  | expired _ _ ih => exact ih
  | share harrives hr ih =>
    have hk := hkept harrives
    exact placed_share (arrives_life harrives) ih (List.nodup_cons.mp hk.pending).1
      (hk.apart_head rfl) (hfits _ _ harrives) hr
  | allocate _ _ _ ih => exact ih
  | spill _ _ _ ih => exact ih
  | @allocated x rest s s' r harrives hs' ih =>
    have hk := hkept harrives
    obtain ⟨r', hfree, hok⟩ := allocate_ok x (of_decide_eq_true hk.checked)
    have hjoins := hfits _ _ harrives r s' hs'
    cases hs'.symm.trans hok
    exact placed_allocated (arrives_life harrives) ih (List.nodup_cons.mp hk.pending).1 hk.holds
      hfree rfl rfl rfl hjoins
  | spilled harrives hs' ih =>
    have hk := hkept harrives
    exact placed_spilled (arrives_life harrives) ih (List.nodup_cons.mp hk.pending).1
      (hk.apart_head rfl) hk.holds (hfits _ _ harrives) hs'

/-! ### What the operands hold -/

theorem exec_locals {i : Instruction} {f : Activation} {w : World} {es : List Event}
    {s' : Activation × World} (h : f.exec i w = .ok (.step es s')) {v : Nat}
    (hv : i.stored? ≠ some v) : s'.1.locals[v]? = f.locals[v]? := by
  have hsame := exec_agrees (Alike.refl i f) w
  rw [h] at hsame
  cases hsame with
  | ok hm =>
    cases hm with
    | @step _ c _ hc =>
      show (storeLocal f.locals c.stored)[v]? = f.locals[v]?
      have hstored := hc.stored
      generalize c.stored = stored at hstored
      obtain _ | ⟨n, x⟩ := stored
      · rfl
      · have hne : n ≠ v := fun hn => hv (hn ▸ hstored.symm)
        exact List.getElem?_set_ne hne

/-- Nothing is written to the temp or stored in the variable. -/
theorem loaded_keepsValue {code : List Instruction} (hd : (dests code).Nodup) {o : Operands}
    {t v : Nat} (h : Loaded code o t v) : KeepsValue code (o.temp t).liveEnd t v := by
  obtain ⟨p, hp, hstore⟩ := h
  refine ⟨p, hp, fun env n s s' tr hr hcode hip => ?_⟩
  let inv (s : Activation × World) : Prop :=
    s.1.code = code ∧ (s.1.ip = p ∨ s.1.temps t = s.1.locals[v]?)
  suffices hinv : inv s' from hinv.2
  refine hr.invariant (fun s es s' h hk hm => ?_) (fun s r next a h hk hm _ => ?_)
    ⟨hcode, .inl hip⟩
  · obtain ⟨i, hi, hexec⟩ := move_inv hm
    refine ⟨(exec_code hexec).trans h.1, .inr ?_⟩
    rw [h.1] at hi
    by_cases hsp : s.1.ip = p
    · rw [hsp] at hi
      cases hi.symm.trans hp
      obtain ⟨x, hx, hexec⟩ := Results.bind_ok.mp hexec
      cases hexec
      unfold rawIndex at hx
      split at hx
      · next y hy =>
        cases hx
        exact (Function.update_self ..).trans hy.symm
      · cases hx
    · have hlt : p < s.1.ip := Nat.lt_of_le_of_ne hk.1 (Ne.symm hsp)
      have htemp : t ∉ i.dests := fun ht =>
        hsp (place_unique (g := Instruction.dests) hd hi hp ht (List.mem_singleton_self t))
      have hstored : i.stored? ≠ some v := by
        intro hs
        cases i with
        | store dest src =>
          cases dest with
          | var m =>
            cases hs
            exact hstore s.1.ip src hlt hk.2 hi
          | deref _ => cases hs
          | glob _ => cases hs
        | _ => cases hs
      rw [exec_frame hexec htemp, exec_locals hexec hstored]
      exact h.2.resolve_left hsp
  · obtain ⟨i, hi, hexec⟩ := move_inv hm
    obtain ⟨htemps, hcode, hlocals⟩ := exec_ask hexec a
    refine ⟨hcode.trans h.1, .inr ?_⟩
    rw [htemps, hlocals]
    refine h.2.resolve_left fun hsp => ?_
    rw [h.1, hsp] at hi
    cases hi.symm.trans hp
    obtain ⟨x, hx, hexec⟩ := Results.bind_ok.mp hexec
    cases hexec

/-- What the code says holds in runs. -/
theorem sameValue_keeps {code : List Instruction} (hd : (dests code).Nodup) {o : Operands}
    {x y : Item} (h : SameValue code o x y) :
    HoldAlike (fun t v => KeepsValue code (o.temp t).liveEnd t v) code o x y := by
  have hvalue {v : Nat} {x : Item} (hx : x.HasValueOf (Loaded code o) v) :
      x.HasValueOf (fun t v => KeepsValue code (o.temp t).liveEnd t v) v := by
    refine hx.imp_right ?_
    rintro ⟨t, rfl, hl⟩
    exact ⟨t, rfl, loaded_keepsValue hd hl⟩
  obtain ⟨v, hxy⟩ := h
  exact ⟨v, hxy.imp_left fun hboth => ⟨hvalue hboth.1, hvalue hboth.2⟩⟩

theorem alive_overlap {a b : Operand} {p : Int} (ha : a.AliveAt p) (hb : b.AliveAt p) :
    Overlap a b := by
  have hstarta : (a.liveStart : WithTop Int) ≤ p := WithTop.coe_le_coe.mpr ha.1
  have hstartb : (b.liveStart : WithTop Int) ≤ p := WithTop.coe_le_coe.mpr hb.1
  exact ⟨hstarta.trans_lt ha.2, hstartb.trans_lt hb.2, hstarta.trans_lt hb.2,
    hstartb.trans_lt ha.2⟩

theorem conflictFree_destroys {code : List Instruction} (hd : (dests code).Nodup) {o : Operands}
    (h : ConflictFree code o) : NothingDestroyed code o := by
  intro x y r p hxy hx hy hax hay
  exact sameValue_keeps hd (h x y r hxy hx hy (alive_overlap hax hay))

theorem placed_conflictFree
    (hlife : ∀ x : Item, (x.operand s.operands).life = (x.operand c.operands).life)
    (h : Placed c rest s) : ConflictFree c.instructions s.operands := by
  intro x y r hxy hx hy ho
  exact sameValue_congr hlife (h.apart x y r hxy hx hy (overlap_congr (hlife x) (hlife y) ho))

/-! ### A step that does not fit -/

/-- Where the operand has the register in the next state, and the others keep it, a
state without conflicts lets the operand join them. -/
theorem joins_of_next {code : List Instruction} {s' : Allocation}
    (hlife : ∀ x : Item, (x.operand s'.operands).life = (x.operand s.operands).life)
    (h : ConflictFree code s'.operands) {among : Item → Prop} {r : Reg}
    (hself : (x.operand s'.operands).reg = some r)
    (hother : ∀ y : Item, y ≠ x → among y →
      (y.operand s'.operands).reg = (y.operand s.operands).reg) :
    s.Joins code among x r := by
  intro y hyx hy hr ho
  have hback (x : Item) : (x.operand s.operands).life = (x.operand s'.operands).life :=
    (hlife x).symm
  exact sameValue_congr hback (h x y r (Ne.symm hyx) hself ((hother y hyx hy).trans hr)
    (overlap_congr (hback x) (hback y) ho))

theorem fits_of_conflictFree (hv : c.vars.Nodup)
    (h : ∀ p s, c.Arrives p s → ConflictFree c.instructions s.operands) {p : Place}
    (harrives : c.Arrives p s) : p.Fits c.instructions s := by
  have hlife {p' : Place} {s' : Allocation} (hs' : c.Arrives p' s') (x : Item) :
      (x.operand s'.operands).life = (x.operand s.operands).life :=
    (arrives_life hs' x).trans (arrives_life harrives x).symm
  cases p with
  | loop | expire => trivial
  | expired x rest =>
    intro r hr
    have hnext := Compiler.Arrives.share harrives hr
    refine joins_of_next (hlife hnext) (h _ _ hnext) ?_ fun y hy _ => reg_shareReg hy r s
    unfold sharedReg at hr
    split at hr
    · cases hr
    · next t =>
      show (Item.operand (s.operands.modifyTemp t fun u =>
        { u with reg := some r, sharedReg := true }) (.temp t)).reg = some r
      rw [operand_modifyTemp, if_pos rfl]
  | allocate x rest =>
    intro r s' hs'
    have hnext := Compiler.Arrives.allocated harrives hs'
    refine joins_of_next (hlife hnext) (h _ _ hnext) (allocated_self x r s') fun y hy _ => ?_
    rw [allocated_other hy]
    unfold allocateReg at hs'
    split at hs'
    · cases hs'
      rfl
    · cases hs'
  | spill x rest =>
    intro w r hlast hwr hlt
    have hkept := arrives_kept (sorted_nodup hv) harrives
    have hnot := hkept.apart_head rfl
    obtain ⟨s', hs', -⟩ := spill_holds hkept.holds hnot (of_decide_eq_false hkept.checked)
    have hnext := Compiler.Arrives.spilled harrives hs'
    cases spill_cases hnot hs' with
    | taken w' hlast' _ hself _ hother _ =>
      cases hlast.symm.trans hlast'
      exact joins_of_next (hlife hnext) (h _ _ hnext) (hself.trans hwr) fun y hy hyw =>
        hother y hy hyw.1
    | without late => exact absurd hlt (late w hlast)

end ConflictsLemmas

open ConflictsLemmas

/-- `x + x` is returned. -/
def double : Compiler where
  bytecode := {}
  vars := [0]
  temps := 3
  instructions := [.assign 0 (.var 0), .assign 1 (.var 0), .binOp .intAdd 2 0 1, .ret 2]
  operands := { Operands.fresh with
    var := fun n => { Var.new n with
      liveStart := 0, liveEnd := if n = 0 then ((2 : Int) : WithTop Int) else (0 : Int) }
    temp := fun t =>
      if t < 2 then
        { toOperand := Operand.hintVar 0 { liveStart := t, liveEnd := (2 : Int) } }
      else { liveStart := 2, liveEnd := (3 : Int) } }

namespace ConflictsLemmas

theorem double_hint {t v : Nat} (h : (double.operands.temp t).var? = some v) : t < 2 ∧ v = 0 := by
  by_cases ht : t < 2
  · refine ⟨ht, ?_⟩
    have htemp : double.operands.temp t =
        { toOperand := Operand.hintVar 0 { liveStart := t, liveEnd := (2 : Int) } } := if_pos ht
    rw [htemp] at h
    exact (Option.some.inj h).symm
  · have htemp : double.operands.temp t = { liveStart := 2, liveEnd := (3 : Int) } := if_neg ht
    rw [htemp] at h
    cases h

theorem double_loaded {t : Nat} (ht : t < 2) :
    Loaded double.instructions double.operands t 0 := by
  refine ⟨t, ?_, fun q src _ _ hq => ?_⟩
  · obtain _ | _ | t := t
    · rfl
    · rfl
    · exact absurd ht (by omega)
  · have hmem := List.mem_of_getElem? hq
    simp [double] at hmem

/-- An operand whose life overlaps that of a hinted temp. -/
theorem double_overlap {x : Item} {t : Nat} (ht : t < 2)
    (ho : Overlap (x.operand double.operands) (Item.operand double.operands (.temp t))) :
    x = .var 0 ∨ ∃ u, u < 2 ∧ x = .temp u := by
  cases x with
  | var n =>
    by_cases hn : n = 0
    · exact .inl (hn ▸ rfl)
    · have hleft : ((0 : Int) : WithTop Int) <
          if n = 0 then ((2 : Int) : WithTop Int) else (0 : Int) := ho.left
      rw [if_neg hn] at hleft
      exact absurd hleft (lt_irrefl _)
  | temp u =>
    by_cases hu : u < 2
    · exact .inr ⟨u, hu, rfl⟩
    · have hbefore := ho.before
      unfold Item.operand double at hbefore
      dsimp only at hbefore
      rw [if_neg hu, if_pos ht] at hbefore
      exact absurd hbefore (lt_irrefl _)

theorem double_alike {x y : Item} (hy : y.Hinted double.operands)
    (ho : Overlap (x.operand double.operands) (y.operand double.operands)) :
    SameValue double.instructions double.operands x y := by
  obtain ⟨t, v, rfl, hv⟩ := hy
  obtain ⟨ht, rfl⟩ := double_hint hv
  refine ⟨0, .inl ⟨?_, .inr ⟨t, rfl, double_loaded ht⟩⟩⟩
  rcases double_overlap ht ho with rfl | ⟨u, hu, rfl⟩
  · exact .inl rfl
  · exact .inr ⟨u, rfl, double_loaded hu⟩

theorem double_regs (x : Item) : (x.operand double.operands).reg = none := by
  cases x with
  | var n => rfl
  | temp t =>
    show (if t < 2 then _ else _ : Temp).reg = none
    split <;> rfl

theorem double_fits (p : Place) (s : Allocation) (h : double.Arrives p s) :
    p.Fits double.instructions s := by
  have hlife := arrives_life h
  have hback (x : Item) : (x.operand double.operands).life = (x.operand s.operands).life :=
    (hlife x).symm
  have alike {x y : Item} (hy : y.Hinted s.operands)
      (ho : Overlap (x.operand s.operands) (y.operand s.operands)) :
      SameValue double.instructions s.operands x y :=
    sameValue_congr hlife (double_alike (hinted_congr hback hy)
      (overlap_congr (hlife x) (hlife y) ho))
  cases p with
  | loop | expire => trivial
  | expired x rest =>
    intro r hr
    unfold sharedReg at hr
    split at hr
    · cases hr
    · next t =>
      obtain ⟨v, hv, -⟩ := Option.bind_eq_some_iff.mp hr
      intro y _ _ _ ho
      exact sameValue_symm (alike ⟨t, v, rfl, hv⟩ (overlap_symm ho))
  | allocate x rest => exact fun r s' _ y _ hy _ ho => alike hy ho
  | spill x rest => exact fun w r _ _ _ y _ hy _ ho => alike hy.2 ho

end ConflictsLemmas

/-- `f = fun(x) { x = {a: x;}; return x; };` -/
def selfRecord : Program :=
  .cons (.assignment (.name "f") (.function ["x"]
    (.cons (.assignment (.name "x") (.record (.cons "a" (.lhs (.name "x")) .nil)))
    (.cons (.ret (.lhs (.name "x"))) .nil)))) .nil

/-- The function in it. -/
def selfRecordFunction : Function :=
  (Beaverc.compile selfRecord).functions.headD {}

namespace ConflictsLemmas

theorem selfRecord_subFunction : SubFunction (Beaverc.compile selfRecord) selfRecordFunction := by
  refine .step (.refl _) ?_
  have hfs : (Beaverc.compile selfRecord).functions = [selfRecordFunction] := rfl
  rw [hfs]
  exact List.mem_singleton.mpr rfl

/-- The interval and the register of an operand. -/
structure Assigned where
  liveStart : Int
  liveEnd : WithTop Int
  reg : Option Reg
deriving DecidableEq

def assigned (t : Operand) : Assigned :=
  ⟨t.liveStart, t.liveEnd, t.reg⟩

/-- The code, and what the scan makes of temp 1 and the variable. -/
def selfRecordScan : Option (List Instruction × Assigned × Assigned) := do
  let c ← Compiler.compile .fresh selfRecordFunction
  let oc ← (allPasses.dropLast.foldlM OptimizingCompiler.run ⟨c, []⟩).toOption
  let c' ← oc.compiler.linearScanAllocate.toOption
  return (c'.instructions, assigned (c'.operands.temp 1).toOperand,
    assigned (c'.operands.var 0).toOperand)

/-- The code that the passes leave. -/
def selfRecordCode : List Instruction :=
  [.forceLoad 0, .callHelper .allocRecord [], .assign 0 .retVal, .fork 0 1 2,
    .assign 3 (.var 0), .callHelper (.fieldStore 0) [2, 3], .store (.var 0) 1,
    .assign 4 (.var 0), .ret 4, .assign 5 (.const .none), .ret 5]

theorem selfRecord_scan : selfRecordScan =
    some (selfRecordCode, ⟨3, (6 : Int), some .r12⟩, ⟨0, (8 : Int), some .r12⟩) := by
  decide +kernel

/-- Compilation stands in front of the scan, which gives temp 1 and the variable one
register. -/
theorem selfRecord_stands : ∃ oc, Stands .fresh selfRecordFunction (allPasses.length - 1) oc ∧
    ∃ c', oc.compiler.linearScanAllocate = .ok c' ∧ c'.instructions = selfRecordCode ∧
      assigned (c'.operands.temp 1).toOperand = ⟨3, (6 : Int), some .r12⟩ ∧
      assigned (c'.operands.var 0).toOperand = ⟨0, (8 : Int), some .r12⟩ := by
  have hrun := selfRecord_scan
  unfold selfRecordScan at hrun
  obtain ⟨c, hc, h⟩ := Option.bind_eq_some_iff.mp hrun
  obtain ⟨oc, hoc, h⟩ := Option.bind_eq_some_iff.mp h
  obtain ⟨c', hc', h⟩ := Option.bind_eq_some_iff.mp h
  obtain ⟨hcode, h⟩ := Prod.mk.inj (Option.some.inj h)
  obtain ⟨htemp, hvar⟩ := Prod.mk.inj h
  exact ⟨oc, ⟨c, hc, Results.toOption_eq_some hoc⟩, c', Results.toOption_eq_some hc', hcode, htemp,
    hvar⟩

end ConflictsLemmas

end Beaverc.Ir
