import Mathlib.Data.List.Basic

/-!
# Evaluations and what they evaluate

A computation of an interpreter on a state (`Eval`) that may stop early and that
records what was evaluated: one tree for each evaluation it made, whose children
are the evaluations made for it, in order. Judgments about the trees are closed
under the operations of the monad, so that they are shown of an interpreter one
visitor at a time.
-/

namespace Beaverc.Evaluations

/-- An evaluation and the evaluations that were made for it, in order. -/
inductive CallTree (ι : Type) where
  | node (label : ι) (children : List (CallTree ι))

namespace CallTree

variable {ι : Type}

def label : CallTree ι → ι
  | node a _ => a

def children : CallTree ι → List (CallTree ι)
  | node _ ts => ts

/-- `P` holds of every evaluation in the tree and those made for it. -/
inductive All (P : ι → List ι → Prop) : CallTree ι → Prop
  | node {a : ι} {ts : List (CallTree ι)} : P a (ts.map label) → (∀ t ∈ ts, All P t) →
      All P (node a ts)

theorem All.leaf {P : ι → List ι → Prop} {a : ι} (h : P a []) : (CallTree.node a []).All P :=
  .node h fun t ht => by cases ht

theorem All.and_then {P Q R : ι → List ι → Prop} (h : ∀ a as, P a as → Q a as →
    R a as) {t : CallTree ι}
    (hp : t.All P) (hq : t.All Q) : t.All R := by
  induction hp with
  | node htop _ ih =>
    cases hq with
    | node htop' hall' => exact .node (h _ _ htop htop') fun t ht => ih t ht (hall' t ht)

mutual
/-- The labels in the order in which the evaluations began. -/
def events : CallTree ι → List ι
  | node a ts => a :: eventsAll ts

def eventsAll : List (CallTree ι) → List ι
  | [] => []
  | t :: ts => t.events ++ eventsAll ts
end

@[simp] theorem eventsAll_append (ts us : List (CallTree ι)) :
    eventsAll (ts ++ us) = eventsAll ts ++ eventsAll us := by
  induction ts with
  | nil => rfl
  | cons t ts ih => rw [List.cons_append, eventsAll, ih, eventsAll, List.append_assoc]

mutual
theorem All.of_events {P : ι → List ι → Prop} : {t : CallTree ι} → t.All P →
    ∀ a ∈ t.events, ∃ as, P a as
  | .node _ ts, .node htop hall, a, ha => by
    rw [events, List.mem_cons] at ha
    rcases ha with rfl | ha
    · exact ⟨_, htop⟩
    · exact All.of_eventsAll hall a ha

theorem All.of_eventsAll {P : ι → List ι → Prop} : {ts : List (CallTree ι)} →
    (∀ t ∈ ts, All P t) → ∀ a ∈ eventsAll ts, ∃ as, P a as
  | [], _, _, ha => by cases ha
  | t :: ts, hall, a, ha => by
    rw [eventsAll, List.mem_append] at ha
    rcases ha with ha | ha
    · exact (hall t (List.mem_cons_self ..)).of_events a ha
    · exact All.of_eventsAll (fun u hu => hall u (List.mem_cons_of_mem _ hu)) a ha
end

end CallTree

/-- A computation on a state. Where it stops early, the state and the trees up to
there stay. -/
def Eval (σ ε ι α : Type) : Type :=
  σ → Except ε α × σ × List (CallTree ι)

namespace Eval

variable {σ ε ι α β : Type}

def outcome (m : Eval σ ε ι α) (s : σ) : Except ε α :=
  (m s).1

def after (m : Eval σ ε ι α) (s : σ) : σ :=
  (m s).2.1

def trees (m : Eval σ ε ι α) (s : σ) : List (CallTree ι) :=
  (m s).2.2

def andThen (s : σ) (ts : List (CallTree ι)) : Except ε α → (α → Eval σ ε ι β) →
    Except ε β × σ × List (CallTree ι)
  | .ok a, f => ((f a s).1, (f a s).2.1, ts ++ (f a s).2.2)
  | .error e, _ => (.error e, s, ts)

instance monad : Monad (Eval σ ε ι) where
  pure a := fun s => (.ok a, s, [])
  bind m f := fun s => andThen (m s).2.1 (m s).2.2 (m s).1 f

def get : Eval σ ε ι σ :=
  fun s => (.ok s, s, [])

def modify (f : σ → σ) : Eval σ ε ι Unit :=
  fun s => (.ok (), f s, [])

def stop (e : ε) : Eval σ ε ι α :=
  fun s => (.error e, s, [])

/-- An event of its own. -/
def mark (label : ι) : Eval σ ε ι Unit :=
  fun s => (.ok (), s, [.node label []])

/-- One evaluation, labelled by the state before it and its outcome. -/
def record (label : σ → Except ε α → ι) (m : Eval σ ε ι α) : Eval σ ε ι α :=
  fun s => (m.outcome s, m.after s, [.node (label s (m.outcome s)) (m.trees s)])

/-! ## The laws of a monad -/

section Laws

variable {γ : Type}

theorem bind_pure_eq (x : Eval σ ε ι α) : x >>= pure = x := by
  funext s
  show andThen (x s).2.1 (x s).2.2 (x s).1 pure = x s
  rcases x s with ⟨a | a, s', ts⟩
  · rfl
  · exact congrArg (fun us => (Except.ok a, s', us)) (List.append_nil ts)

theorem andThen_assoc (r : Except ε α × σ × List (CallTree ι)) (f : α → Eval σ ε ι β)
    (g : β → Eval σ ε ι γ) :
    andThen (andThen r.2.1 r.2.2 r.1 f).2.1 (andThen r.2.1 r.2.2 r.1 f).2.2
      (andThen r.2.1 r.2.2 r.1 f).1 g = andThen r.2.1 r.2.2 r.1 fun a => f a >>= g := by
  rcases r with ⟨e | a, s, ts⟩
  · rfl
  · show andThen (f a s).2.1 (ts ++ (f a s).2.2) (f a s).1 g =
      (((f a >>= g) s).1, ((f a >>= g) s).2.1, ts ++ ((f a >>= g) s).2.2)
    have hbind : (f a >>= g) s = andThen (f a s).2.1 (f a s).2.2 (f a s).1 g := rfl
    rw [hbind]
    rcases f a s with ⟨e | b, s', us⟩
    · rfl
    · exact congrArg (fun vs => ((g b s').1, (g b s').2.1, vs)) (List.append_assoc ..)

instance lawful : LawfulMonad (Eval σ ε ι) :=
  LawfulMonad.mk' _ bind_pure_eq (fun _ _ => rfl) fun x f g =>
    funext fun s => andThen_assoc (x s) f g

end Laws

/-! ## The results of the operations -/

section Results

variable (a : α) (e : ε) (s : σ) (g : σ → σ) (l : ι) (m : Eval σ ε ι α) (f : α → Eval σ ε ι β)

@[simp] theorem outcome_pure : (pure a : Eval σ ε ι α).outcome s = .ok a := rfl
@[simp] theorem after_pure : (pure a : Eval σ ε ι α).after s = s := rfl
@[simp] theorem trees_pure : (pure a : Eval σ ε ι α).trees s = [] := rfl
@[simp] theorem outcome_get : (get : Eval σ ε ι σ).outcome s = .ok s := rfl
@[simp] theorem after_get : (get : Eval σ ε ι σ).after s = s := rfl
@[simp] theorem trees_get : (get : Eval σ ε ι σ).trees s = [] := rfl
@[simp] theorem outcome_modify : (modify g : Eval σ ε ι Unit).outcome s = .ok () := rfl
@[simp] theorem after_modify : (modify g : Eval σ ε ι Unit).after s = g s := rfl
@[simp] theorem trees_modify : (modify g : Eval σ ε ι Unit).trees s = [] := rfl
@[simp] theorem outcome_stop : (stop e : Eval σ ε ι α).outcome s = .error e := rfl
@[simp] theorem after_stop : (stop e : Eval σ ε ι α).after s = s := rfl
@[simp] theorem trees_stop : (stop e : Eval σ ε ι α).trees s = [] := rfl
@[simp] theorem outcome_mark : (mark l : Eval σ ε ι Unit).outcome s = .ok () := rfl
@[simp] theorem after_mark : (mark l : Eval σ ε ι Unit).after s = s := rfl
@[simp] theorem trees_mark : (mark l : Eval σ ε ι Unit).trees s = [.node l []] := rfl

theorem trees_record (label : σ → Except ε α → ι) :
    (record label m).trees s = [.node (label s (m.outcome s)) (m.trees s)] :=
  rfl

variable {a e s m}

/-- A sequence whose first part ends. -/
theorem bind_ok (h : m.outcome s = .ok a) :
    (m >>= f).outcome s = (f a).outcome (m.after s) ∧ (m >>= f).after s = (f a).after (m.after s) ∧
      (m >>= f).trees s = m.trees s ++ (f a).trees (m.after s) := by
  have hr : (m >>= f) s = andThen (m s).2.1 (m s).2.2 (m s).1 f := rfl
  unfold outcome at h
  rw [h] at hr
  unfold outcome after trees
  rw [hr]
  exact ⟨rfl, rfl, rfl⟩

/-- A sequence whose first part stops. -/
theorem bind_error (h : m.outcome s = .error e) :
    (m >>= f).outcome s = .error e ∧ (m >>= f).after s = m.after s ∧
      (m >>= f).trees s = m.trees s := by
  have hr : (m >>= f) s = andThen (m s).2.1 (m s).2.2 (m s).1 f := rfl
  unfold outcome at h
  rw [h] at hr
  unfold outcome after trees
  rw [hr]
  exact ⟨rfl, rfl, rfl⟩

/-- What the first part of a sequence records comes first. -/
theorem trees_bind_extends (m : Eval σ ε ι α) (f : α → Eval σ ε ι β) (s : σ) :
    m.trees s <+: (m >>= f).trees s := by
  cases ho : m.outcome s with
  | error e =>
    have htrees := (bind_error f ho).2.2
    exact htrees.symm ▸ List.prefix_refl _
  | ok a =>
    rw [(bind_ok f ho).2.2]
    exact List.prefix_append _ _

end Results

/-! ## Judgments about the trees -/

/-- `m` records nothing. -/
structure Silent (m : Eval σ ε ι α) : Prop where
  nothing : ∀ s, m.trees s = []

/-- Every tree that `m` records is as `G` says. -/
structure Records (G : CallTree ι → Prop) (m : Eval σ ε ι α) : Prop where
  of_mem : ∀ s, ∀ t ∈ m.trees s, G t

/-- `m` records the evaluations that `pick` finds in `ks`, in this order, and all
of them if it ends. -/
structure Visits {κ : Type} (pick : ι → Option κ) (m : Eval σ ε ι α) (ks : List κ) : Prop where
  upTo : ∀ s, (m.trees s).filterMap (fun t => pick t.label) <+: ks
  all : ∀ s a, m.outcome s = .ok a → (m.trees s).filterMap (fun t => pick t.label) = ks

section Rules

variable {G : CallTree ι → Prop} {κ : Type} {pick : ι → Option κ} {m : Eval σ ε ι α}
  {f : α → Eval σ ε ι β} {ks ls : List κ}

theorem silent_pure (a : α) : Silent (pure a : Eval σ ε ι α) := ⟨fun _ => rfl⟩

theorem silent_get : Silent (get : Eval σ ε ι σ) := ⟨fun _ => rfl⟩

theorem silent_modify (g : σ → σ) : Silent (modify g : Eval σ ε ι Unit) := ⟨fun _ => rfl⟩

theorem silent_stop (e : ε) : Silent (stop e : Eval σ ε ι α) := ⟨fun _ => rfl⟩

theorem silent_bind (hm : Silent m) (hf : ∀ a, Silent (f a)) : Silent (m >>= f) := by
  constructor
  intro s
  cases ho : m.outcome s with
  | error e => rw [(bind_error f ho).2.2, hm.nothing]
  | ok a => rw [(bind_ok f ho).2.2, hm.nothing, (hf a).nothing, List.nil_append]

theorem records_of_silent (h : Silent m) : Records G m := by
  constructor
  intro s t ht
  rw [h.nothing] at ht
  cases ht

theorem records_mark {l : ι} (h : G (.node l [])) : Records G (mark l : Eval σ ε ι Unit) := by
  constructor
  intro s t ht
  rw [trees_mark, List.mem_singleton] at ht
  exact ht ▸ h

theorem records_bind (hm : Records G m) (hf : ∀ a, Records G (f a)) : Records G (m >>= f) := by
  constructor
  intro s t ht
  cases ho : m.outcome s with
  | error e =>
    rw [(bind_error f ho).2.2] at ht
    exact hm.of_mem s t ht
  | ok a =>
    rw [(bind_ok f ho).2.2, List.mem_append] at ht
    rcases ht with ht | ht
    · exact hm.of_mem s t ht
    · exact (hf a).of_mem _ t ht

theorem visits_of_silent (h : Silent m) : Visits pick m [] := by
  constructor
  · intro s
    simp [h.nothing]
  · intro s _ _
    simp [h.nothing]

/-- What stops has the rest of the list still to visit. -/
theorem visits_stop (e : ε) : Visits pick (stop e : Eval σ ε ι α) ks :=
  ⟨fun _ => List.nil_prefix, nofun⟩

theorem visits_mark {l : ι} (h : pick l = none) : Visits pick (mark l : Eval σ ε ι Unit) [] := by
  constructor
  · intro s
    simp [CallTree.label, h]
  · intro s _ _
    simp [CallTree.label, h]

theorem visits_bind (hm : Visits pick m ks) (hf : ∀ a, Visits pick (f a) ls) :
    Visits pick (m >>= f) (ks ++ ls) := by
  constructor
  · intro s
    cases ho : m.outcome s with
    | error e =>
      rw [(bind_error f ho).2.2]
      exact (hm.upTo s).trans (List.prefix_append _ _)
    | ok a =>
      rw [(bind_ok f ho).2.2, List.filterMap_append, hm.all s a ho]
      exact (List.prefix_append_right_inj _).mpr ((hf a).upTo _)
  · intro s b hb
    cases ho : m.outcome s with
    | error e => rw [(bind_error f ho).1] at hb; cases hb
    | ok a =>
      rw [(bind_ok f ho).1] at hb
      rw [(bind_ok f ho).2.2, List.filterMap_append, hm.all s a ho, (hf a).all _ b hb]

theorem visits_bind_silent (hm : Silent m) (hf : ∀ a, Visits pick (f a) ls) :
    Visits pick (m >>= f) ls :=
  visits_bind (visits_of_silent hm) hf

theorem visits_then_silent (hm : Visits pick m ks) (hf : ∀ a, Silent (f a)) :
    Visits pick (m >>= f) ks :=
  List.append_nil ks ▸ visits_bind hm fun a => visits_of_silent (hf a)

end Rules

/-! ## Assumptions and guarantees -/

/-- From a state as in `I`, and as long as all evaluations are as in `A`: they are
as in `G` too, the state stays as in `I`, and a result is as in `good`. -/
structure Guarded (I : σ → Prop) (A G : ι → List ι → Prop) (m : Eval σ ε ι α) (good : α → Prop) :
    Prop where
  of_assumed : ∀ s, I s → (∀ t ∈ m.trees s, t.All A) →
    I (m.after s) ∧ (∀ a, m.outcome s = .ok a → good a) ∧ ∀ t ∈ m.trees s, t.All G

section Guarantees

variable {I : σ → Prop} {A G : ι → List ι → Prop} {m : Eval σ ε ι α} {f : α → Eval σ ε ι β}
  {good good' : α → Prop} {fine : β → Prop}

theorem guarded_pure {a : α} (h : good a) : Guarded I A G (pure a : Eval σ ε ι α) good := by
  constructor
  intro s hs _
  exact ⟨hs, fun b hb => by cases hb; exact h, nofun⟩

theorem guarded_get : Guarded I A G (get : Eval σ ε ι σ) I := by
  constructor
  intro s hs _
  exact ⟨hs, fun b hb => by cases hb; exact hs, nofun⟩

theorem guarded_modify {g : σ → σ} (h : ∀ s, I s → I (g s)) :
    Guarded I A G (modify g : Eval σ ε ι Unit) fun _ => True := by
  constructor
  intro s hs _
  exact ⟨h s hs, fun _ _ => trivial, nofun⟩

theorem guarded_stop (e : ε) : Guarded I A G (stop e : Eval σ ε ι α) good := by
  constructor
  intro s hs _
  exact ⟨hs, nofun, nofun⟩

theorem guarded_mark {l : ι} (h : G l []) :
    Guarded I A G (mark l : Eval σ ε ι Unit) fun _ => True := by
  constructor
  intro s hs _
  refine ⟨hs, fun _ _ => trivial, fun t ht => ?_⟩
  rw [trees_mark, List.mem_singleton] at ht
  rw [ht]
  exact .leaf h

theorem guarded_mono (h : Guarded I A G m good) (hg : ∀ a, good a → good' a) :
    Guarded I A G m good' := by
  constructor
  intro s hs ha
  obtain ⟨hafter, hgood, hall⟩ := h.of_assumed s hs ha
  exact ⟨hafter, fun a ho => hg a (hgood a ho), hall⟩

theorem guarded_bind (hm : Guarded I A G m good) (hf : ∀ a, good a → Guarded I A G (f a) fine) :
    Guarded I A G (m >>= f) fine := by
  constructor
  intro s hs ha
  cases ho : m.outcome s with
  | error e =>
    obtain ⟨hout, hafter, htrees⟩ := bind_error f ho
    rw [htrees] at ha
    rw [hout, hafter, htrees]
    obtain ⟨hI, -, hall⟩ := hm.of_assumed s hs ha
    exact ⟨hI, nofun, hall⟩
  | ok a =>
    obtain ⟨hout, hafter, htrees⟩ := bind_ok f ho
    rw [htrees] at ha
    rw [hout, hafter, htrees]
    obtain ⟨hI, hgood, hall⟩ := hm.of_assumed s hs fun t ht => ha t (List.mem_append_left _ ht)
    obtain ⟨hI', hgood', hall'⟩ := (hf a (hgood a ho)).of_assumed _ hI fun t ht =>
      ha t (List.mem_append_right _ ht)
    refine ⟨hI', hgood', fun t ht => ?_⟩
    rcases List.mem_append.mp ht with ht | ht
    · exact hall t ht
    · exact hall' t ht

end Guarantees

end Eval

end Beaverc.Evaluations
