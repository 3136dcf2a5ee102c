import Mathlib.Data.Finset.Card
import Mathlib.Logic.Relation
import Mathlib.Logic.Function.Basic

/-!
# Depth-first marking

Marking a graph depth first with a set of marks and a test that stops the
descent. `succ a` is `none` for a node that does not exist; the search then
fails. The search gets a bound on its recursion depth.

On a finite set of nodes that is closed under `succ`, a search with a bound above
the number of unmarked nodes returns (`visitAll_searched`), and from unmarked
nodes it marks exactly those that open paths reach from its roots
(`Searched.iff_reached`).
-/

namespace Beaverc.DepthFirst

section Search

variable {α : Type*} [DecidableEq α]

def visit (succ : α → Option (List α)) (blocked : α → Bool) :
    Nat → α → (α → Bool) → Option (α → Bool)
  | 0, _, _ => none
  | depth + 1, a, marks =>
    match succ a with
    | none => none
    | some children =>
      if marks a || blocked a then some marks
      else children.foldlM (fun marks c => visit succ blocked depth c marks)
        (Function.update marks a true)

def visitAll (succ : α → Option (List α)) (blocked : α → Bool) (depth : Nat) (roots : List α)
    (marks : α → Bool) : Option (α → Bool) :=
  roots.foldlM (fun marks a => visit succ blocked depth a marks) marks

end Search

variable {α : Type*}

/-- An edge the search follows. -/
def Open (succ : α → Option (List α)) (blocked : α → Bool) (a c : α) : Prop :=
  ∃ children, succ a = some children ∧ c ∈ children ∧ blocked c = false

/-- The nodes that open paths reach from the roots. -/
def Reached (succ : α → Option (List α)) (blocked : α → Bool) (roots : List α) (n : α) : Prop :=
  ∃ a ∈ roots, blocked a = false ∧ Relation.ReflTransGen (Open succ blocked) a n

/-- `nodes` is closed under `succ`. -/
def Closed (succ : α → Option (List α)) (nodes : Finset α) : Prop :=
  ∀ a ∈ nodes, ∃ children, succ a = some children ∧ ∀ c ∈ children, c ∈ nodes

/-- The nodes still to be marked. -/
def unmarked (nodes : Finset α) (marks : α → Bool) : Finset α :=
  nodes.filter fun a => marks a = false

/-- What a search from `roots` does to the marks. -/
structure Searched (succ : α → Option (List α)) (blocked : α → Bool) (nodes : Finset α)
    (roots : List α) (marks marks' : α → Bool) : Prop where
  grows : ∀ n, marks n = true → marks' n = true
  sound : ∀ n, marks' n = true → marks n = true ∨ (n ∈ nodes ∧ Reached succ blocked roots n)
  covers : ∀ a ∈ roots, marks' a = true ∨ blocked a = true
  closed : ∀ n, marks' n = true → marks n = false → ∀ c, Open succ blocked n c → marks' c = true

namespace DepthFirstLemmas

variable {succ : α → Option (List α)} {blocked : α → Bool} {nodes : Finset α}

theorem unmarked_le {marks marks' : α → Bool} (h : ∀ n, marks n = true → marks' n = true) :
    (unmarked nodes marks').card ≤ (unmarked nodes marks).card := by
  refine Finset.card_le_card fun n hn => ?_
  rw [unmarked, Finset.mem_filter] at hn ⊢
  refine ⟨hn.1, ?_⟩
  by_contra hm
  rw [h n (Bool.eq_true_of_not_eq_false hm)] at hn
  exact Bool.noConfusion hn.2

theorem unmarked_update_lt [DecidableEq α] {marks : α →
    Bool} {a : α} (ha : a ∈ nodes) (hm : marks a = false) :
    (unmarked nodes (Function.update marks a true)).card < (unmarked nodes marks).card := by
  refine Finset.card_lt_card ((Finset.ssubset_iff_of_subset fun n hn => ?_).mpr ⟨a, ?_, ?_⟩)
  · rw [unmarked, Finset.mem_filter] at hn ⊢
    refine ⟨hn.1, ?_⟩
    by_cases h : n = a
    · rw [h, hm]
    · rw [← hn.2, Function.update_of_ne h]
  · exact Finset.mem_filter.mpr ⟨ha, hm⟩
  · simp [unmarked]

theorem searched_nil (marks : α → Bool) : Searched succ blocked nodes [] marks marks :=
  ⟨fun _ h => h, fun _ h => .inl h, fun _ h => absurd h List.not_mem_nil,
    fun n h h' => by rw [h] at h'; exact Bool.noConfusion h'⟩

theorem reached_mono {roots roots' : List α} (h : ∀ a ∈ roots, a ∈ roots') {n : α}
    (hr : Reached succ blocked roots n) : Reached succ blocked roots' n := by
  obtain ⟨a, ha, hb, hp⟩ := hr
  exact ⟨a, h a ha, hb, hp⟩

theorem searched_cons {a : α} {roots : List α} {m₁ m₂ m₃ : α → Bool}
    (h₁ : Searched succ blocked nodes [a] m₁ m₂) (h₂ : Searched succ blocked nodes roots m₂ m₃) :
    Searched succ blocked nodes (a :: roots) m₁ m₃ where
  grows := fun n h => h₂.grows n (h₁.grows n h)
  sound := fun n h => by
    rcases h₂.sound n h with h | ⟨hn, hr⟩
    · rcases h₁.sound n h with h | ⟨hn, hr⟩
      · exact .inl h
      · exact .inr ⟨hn, reached_mono (fun b hb => by simp_all) hr⟩
    · exact .inr ⟨hn, reached_mono (fun b hb => List.mem_cons_of_mem _ hb) hr⟩
  covers := fun b hb => by
    rcases List.mem_cons.mp hb with rfl | hb
    · rcases h₁.covers b List.mem_cons_self with h | h
      · exact .inl (h₂.grows b h)
      · exact .inr h
    · exact h₂.covers b hb
  closed := fun n h h' c hc => by
    cases hm : m₂ n with
    | false => exact h₂.closed n h hm c hc
    | true => exact h₂.grows c (h₁.closed n hm h' c hc)

/-- Searching the children of a node that has just been marked searches the node. -/
theorem searched_node [DecidableEq α] {a : α} {children : List α} {marks marks' : α →
    Bool} (ha : a ∈ nodes)
    (hs : succ a = some children) (hb : blocked a = false)
    (h : Searched succ blocked nodes children (Function.update marks a true) marks') :
    Searched succ blocked nodes [a] marks marks' where
  grows := fun n hn => by
    refine h.grows n ?_
    by_cases hna : n = a
    · rw [hna, Function.update_self]
    · rw [Function.update_of_ne hna, hn]
  sound := fun n hn => by
    have self : Reached succ blocked [a] a := ⟨a, List.mem_cons_self, hb, .refl⟩
    rcases h.sound n hn with hm | ⟨hn', b, hbm, hbb, hp⟩
    · by_cases hna : n = a
      · exact .inr ⟨hna ▸ ha, hna ▸ self⟩
      · exact .inl (by rwa [Function.update_of_ne hna] at hm)
    · exact .inr ⟨hn', a, List.mem_cons_self, hb, .head ⟨children, hs, hbm, hbb⟩ hp⟩
  covers := fun b hbm => by
    rw [List.mem_singleton.mp hbm]
    exact .inl (h.grows a (Function.update_self ..))
  closed := fun n hn hm c hc => by
    by_cases hna : n = a
    · subst hna
      obtain ⟨children', hs', hcm, hcb⟩ := hc
      rw [hs] at hs'
      cases hs'
      rcases h.covers c hcm with h | h
      · exact h
      · rw [hcb] at h; exact Bool.noConfusion h
    · exact h.closed n hn (by rwa [Function.update_of_ne hna]) c hc

theorem foldlM_searched {f : (α → Bool) → α → Option (α → Bool)} {bound : Nat}
    (hf : ∀ marks, (unmarked nodes marks).card < bound → ∀ a ∈ nodes,
      ∃ marks', f marks a = some marks' ∧ Searched succ blocked nodes [a] marks marks')
    (roots : List α) (hr : ∀ a ∈ roots, a ∈ nodes) (marks : α → Bool)
    (hm : (unmarked nodes marks).card < bound) :
    ∃ marks', roots.foldlM f marks = some marks' ∧
      Searched succ blocked nodes roots marks marks' := by
  induction roots generalizing marks with
  | nil => exact ⟨marks, rfl, searched_nil marks⟩
  | cons a roots ih =>
    obtain ⟨m₁, he₁, hs₁⟩ := hf marks hm a (hr a List.mem_cons_self)
    obtain ⟨m₂, he₂, hs₂⟩ := ih (fun b hb => hr b (List.mem_cons_of_mem _ hb)) m₁
      (lt_of_le_of_lt (unmarked_le hs₁.grows) hm)
    exact ⟨m₂, by rw [List.foldlM_cons, he₁]; exact he₂, searched_cons hs₁ hs₂⟩

/-- Folding two functions that agree above `m₀` and only add marks. -/
theorem foldlM_agree {f g : (α → Bool) → α → Option (α → Bool)} {m₀ : α → Bool}
    (hf : ∀ marks, (∀ n, m₀ n = true → marks n = true) → ∀ a, f marks a = g marks a ∧
      ∀ marks', f marks a = some marks' → ∀ n, marks n = true → marks' n = true)
    (roots : List α) {marks : α → Bool} (hm : ∀ n, m₀ n = true → marks n = true) :
    roots.foldlM f marks = roots.foldlM g marks ∧
      ∀ marks', roots.foldlM f marks = some marks' → ∀ n, marks n = true → marks' n = true := by
  induction roots generalizing marks with
  | nil =>
    refine ⟨rfl, fun marks' h n hn => ?_⟩
    cases h
    exact hn
  | cons a roots ih =>
    obtain ⟨heq, hgrow⟩ := hf marks hm a
    rw [List.foldlM_cons, List.foldlM_cons, ← heq]
    cases hfa : f marks a with
    | none => exact ⟨rfl, fun marks' h => by cases h⟩
    | some m₁ =>
      have h₁ := hgrow m₁ hfa
      obtain ⟨heq', hgrow'⟩ := ih fun n hn => h₁ n (hm n hn)
      exact ⟨heq', fun marks' h n hn => hgrow' marks' h n (h₁ n hn)⟩

end DepthFirstLemmas

open DepthFirstLemmas

section Search

variable [DecidableEq α]

/-- The nodes that are marked from the start may as well be blocked. -/
theorem visit_blocked (succ : α → Option (List α)) (blocked m₀ : α → Bool) (depth : Nat) (a : α)
    {marks : α → Bool} (hm : ∀ n, m₀ n = true → marks n = true) :
    visit succ blocked depth a marks = visit succ (fun n => blocked n || m₀ n) depth a marks ∧
      ∀ marks', visit succ blocked depth a marks = some marks' →
        ∀ n, marks n = true → marks' n = true := by
  induction depth generalizing a marks with
  | zero => exact ⟨rfl, fun marks' h => by cases h⟩
  | succ depth ih =>
    have htest : (marks a || (blocked a || m₀ a)) = (marks a || blocked a) := by
      cases h₀ : m₀ a with
      | false => rw [Bool.or_false]
      | true => rw [hm a h₀, Bool.true_or, Bool.true_or]
    cases hs : succ a with
    | none =>
      simp only [visit, hs]
      exact ⟨trivial, fun marks' h => by cases h⟩
    | some children =>
      simp only [visit, hs, htest]
      split
      · refine ⟨rfl, fun marks' h n hn => ?_⟩
        cases h
        exact hn
      · have up : ∀ n, marks n = true → Function.update marks a true n = true := fun n hn => by
          by_cases hna : n = a
          · rw [hna, Function.update_self]
          · rw [Function.update_of_ne hna, hn]
        have hup : ∀ n, m₀ n = true → Function.update marks a true n = true :=
          fun n hn => up n (hm n hn)
        obtain ⟨heq, hgrow⟩ := foldlM_agree (fun m hm c => ih c hm) children hup
        exact ⟨heq, fun marks' h n hn => hgrow marks' h n (up n hn)⟩

theorem visitAll_blocked (succ : α → Option (List α)) (blocked m₀ : α → Bool) (depth : Nat)
    (roots : List α) :
    visitAll succ blocked depth roots m₀ =
      visitAll succ (fun n => blocked n || m₀ n) depth roots m₀ :=
  (foldlM_agree (fun _ hm a => visit_blocked succ blocked m₀ depth a hm) roots fun _ h => h).1

/-- With a bound above the number of unmarked nodes a visit returns. -/
theorem visit_searched {succ : α → Option (List α)} {blocked : α → Bool} {nodes : Finset α}
    (hc : Closed succ nodes) (depth : Nat) (a : α) (ha : a ∈ nodes) (marks : α → Bool)
    (hd : (unmarked nodes marks).card < depth) :
    ∃ marks', visit succ blocked depth a marks = some marks' ∧
      Searched succ blocked nodes [a] marks marks' := by
  induction depth generalizing a marks with
  | zero => exact absurd hd (Nat.not_lt_zero _)
  | succ depth ih =>
    obtain ⟨children, hs, hin⟩ := hc a ha
    simp only [visit, hs]
    split
    · next h =>
      refine ⟨marks, rfl, fun _ h => h, fun _ h => .inl h, fun b hb => ?_,
        fun n h h' => by rw [h] at h'; exact Bool.noConfusion h'⟩
      rw [List.mem_singleton.mp hb]
      simpa using h
    · next h =>
      have hab : marks a = false ∧ blocked a = false := by simpa using h
      have hlt := unmarked_update_lt ha hab.1
      have hlt' : (unmarked nodes (Function.update marks a true)).card < depth := by omega
      obtain ⟨marks', he, hsr⟩ := foldlM_searched (fun m hm c hc' => ih c hc' m hm) children hin
        (Function.update marks a true) hlt'
      exact ⟨marks', he, searched_node ha hs hab.2 hsr⟩

theorem visitAll_searched {succ : α → Option (List α)} {blocked : α → Bool} {nodes : Finset α}
    (hc : Closed succ nodes) {depth : Nat} {roots : List α} (hr : ∀ a ∈ roots, a ∈ nodes)
    {marks : α → Bool} (hd : (unmarked nodes marks).card < depth) :
    ∃ marks', visitAll succ blocked depth roots marks = some marks' ∧
      Searched succ blocked nodes roots marks marks' :=
  foldlM_searched (fun m hm a ha => visit_searched hc depth a ha m hm) roots hr marks hd

end Search

/-- A search from unmarked nodes marks exactly what its roots reach. -/
theorem Searched.iff_reached {succ : α → Option (List α)} {blocked : α → Bool} {nodes : Finset α}
    {roots : List α} {marks marks' : α → Bool}
    (hs : Searched succ blocked nodes roots marks marks') (hm : ∀ n, marks n = false) (n : α) :
    marks' n = true ↔ Reached succ blocked roots n := by
  constructor
  · intro h
    rcases hs.sound n h with h | ⟨_, h⟩
    · rw [hm] at h; exact Bool.noConfusion h
    · exact h
  · rintro ⟨a, ha, hb, hp⟩
    have hroot : marks' a = true := by
      rcases hs.covers a ha with h | h
      · exact h
      · rw [hb] at h; exact Bool.noConfusion h
    induction hp with
    | refl => exact hroot
    | tail _ hstep ih => exact hs.closed _ ih (hm _) _ hstep

/-- A search marks, beside the nodes marked from the start, those it reaches around them. -/
theorem Searched.iff_around {succ : α → Option (List α)} {blocked : α → Bool} {nodes : Finset α}
    {roots : List α} {m₀ marks' : α → Bool}
    (hs : Searched succ (fun n => blocked n || m₀ n) nodes roots m₀ marks') (n : α) :
    marks' n = true ↔ m₀ n = true ∨ Reached succ (fun n => blocked n || m₀ n) roots n := by
  constructor
  · exact fun h => (hs.sound n h).imp id And.right
  · rintro (h | ⟨a, ha, hb, hp⟩)
    · exact hs.grows n h
    · have hroot : marks' a = true := (hs.covers a ha).resolve_right (ne_true_of_eq_false hb)
      -- every node of the path is unmarked at first, so the search goes on from it
      have hpath : marks' n = true ∧ m₀ n = false := by
        induction hp with
        | refl => exact ⟨hroot, (Bool.or_eq_false_iff.mp hb).2⟩
        | tail _ hstep ih =>
          obtain ⟨hmark, hfresh⟩ := ih
          obtain ⟨children, -, -, hbc⟩ := id hstep
          exact ⟨hs.closed _ hmark hfresh _ hstep, (Bool.or_eq_false_iff.mp hbc).2⟩
      exact hpath.1

end Beaverc.DepthFirst
