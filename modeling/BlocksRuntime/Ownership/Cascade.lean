import BlocksRuntime.Ownership.Graph
import Mathlib.Logic.Relation

/-!
# Release cascades

Giving up a reference to a live node lowers its counter.  If it was the last
reference, the node leaves the graph and the references that it owned become
pending.  A cascade gives up pending references, one at a time and in any
order, until none is left.  The references to names without a node are given
up as well.  They are collected, because somebody outside the graph wants to
know about them.

* `DropStep` gives up one pending reference.
* `Drains` is a complete cascade.  Its rules (`Drains.shared`, `Drains.last`
  and the others) let a recursive implementation be followed step by step.
* `dropStep_diamond` says that two different steps from one state join in
  one step each, so `Drains.unique` holds: the final graph and the collected
  references do not depend on the order.
* `Drains.sound` and `Drains.acyclic` carry the invariants through a
  cascade, and `Drains.refs_outer` is the conservation of external
  references.
-/

namespace Ownership

open Relation

variable {α : Type*} [DecidableEq α]

/-- The effect of giving up one reference: the new graph, the references that
become pending, and the references that leave the graph. -/
def Graph.drop (top : Nat) (g : Graph α) (a : α) : Graph α × Multiset α × Multiset α :=
  match g.node a with
  | none => (g, 0, {a})
  | some n =>
    if n.count = top then (g, 0, 0)
    else if n.count = 0 then (g, 0, 0)
    else if n.count = 1 then (g.erase a, n.owns, 0)
    else (g.set a { n with count := n.count - 1 }, 0, 0)

/-- A cascade in progress. -/
structure Cascade (α : Type*) where
  graph : Graph α
  pending : Multiset α
  left : Multiset α

/-- One pending reference is given up. -/
def DropStep (top : Nat) (s t : Cascade α) : Prop :=
  ∃ a w, s.pending = a ::ₘ w ∧
    t = ⟨(s.graph.drop top a).1, (s.graph.drop top a).2.1 + w, (s.graph.drop top a).2.2 + s.left⟩

/-- A complete cascade from the pending references `w`.  The references in
`f` left the graph. -/
def Drains (top : Nat) (g : Graph α) (w : Multiset α) (g' : Graph α) (f : Multiset α) : Prop :=
  ReflTransGen (DropStep top) ⟨g, w, 0⟩ ⟨g', 0, f⟩

variable {top : Nat} {g g' : Graph α} {w f : Multiset α} {a : α} {n : Node α}

/-! ## The four cases of a drop -/

theorem Graph.drop_outer (h : g.node a = none) : g.drop top a = (g, 0, {a}) := by
  simp [Graph.drop, h]

theorem Graph.drop_latched (h : g.node a = some n) (hc : n.count = top) :
    g.drop top a = (g, 0, 0) := by
  simp [Graph.drop, h, hc]

theorem Graph.drop_last (h : g.node a = some n) (ht : n.count ≠ top) (hc : n.count = 1) :
    g.drop top a = (g.erase a, n.owns, 0) := by
  simp only [Graph.drop, h]
  rw [if_neg ht, if_neg (by omega), if_pos hc]

theorem Graph.drop_shared (h : g.node a = some n) (ht : n.count ≠ top) (hc : 1 < n.count) :
    g.drop top a = (g.set a { n with count := n.count - 1 }, 0, 0) := by
  simp only [Graph.drop, h]
  rw [if_neg ht, if_neg (by omega), if_neg (by omega)]

/-- What a drop does to a graph, as a case distinction. -/
theorem Graph.drop_cases (top : Nat) (g : Graph α) (a : α) :
    (g.node a = none ∧ g.drop top a = (g, 0, {a})) ∨
    (∃ n, g.node a = some n ∧ (n.count = top ∨ n.count = 0) ∧ g.drop top a = (g, 0, 0)) ∨
    (∃ n, g.node a = some n ∧ n.count ≠ top ∧ n.count = 1 ∧
      g.drop top a = (g.erase a, n.owns, 0)) ∨
    (∃ n, g.node a = some n ∧ n.count ≠ top ∧ 1 < n.count ∧
      g.drop top a = (g.set a { n with count := n.count - 1 }, 0, 0)) := by
  cases hn : g.node a with
  | none => exact Or.inl ⟨rfl, Graph.drop_outer hn⟩
  | some n =>
    by_cases ht : n.count = top
    · exact Or.inr (Or.inl ⟨n, rfl, Or.inl ht, Graph.drop_latched hn ht⟩)
    · by_cases h0 : n.count = 0
      · refine Or.inr (Or.inl ⟨n, rfl, Or.inr h0, ?_⟩)
        simp only [Graph.drop, hn]
        rw [if_neg ht, if_pos h0]
      · by_cases h1 : n.count = 1
        · exact Or.inr (Or.inr (Or.inl ⟨n, rfl, ht, h1, Graph.drop_last hn ht h1⟩))
        · exact Or.inr (Or.inr (Or.inr ⟨n, rfl, ht, by omega,
            Graph.drop_shared hn ht (by omega)⟩))

/-- A drop does not touch the other nodes. -/
theorem Graph.drop_node_ne {b : α} (h : b ≠ a) : (g.drop top a).1.node b = g.node b := by
  rcases g.drop_cases top a with ⟨_, he⟩ | ⟨n, _, _, he⟩ | ⟨n, _, _, _, he⟩ | ⟨n, _, _, _, he⟩ <;>
    rw [he] <;> simp [h]

/-- The effect of a drop depends on the node of the dropped name only. -/
theorem Graph.drop_congr (top : Nat) (h : g'.node a = g.node a) :
    (g'.drop top a).2 = (g.drop top a).2 ∧
      (g'.drop top a).1.node a = (g.drop top a).1.node a := by
  rcases g.drop_cases top a with ⟨hn, he⟩ | ⟨n, hn, hc, he⟩ | ⟨n, hn, ht, hc, he⟩ |
    ⟨n, hn, ht, hc, he⟩
  · rw [he, Graph.drop_outer (h.trans hn)]
    exact ⟨rfl, h⟩
  · have hd : g'.drop top a = (g', 0, 0) := by
      rcases hc with hc | hc <;> simp [Graph.drop, h, hn, hc]
    rw [he, hd]
    exact ⟨rfl, h⟩
  · rw [he, Graph.drop_last (h.trans hn) ht hc]
    simp
  · rw [he, Graph.drop_shared (h.trans hn) ht hc]
    simp

/-- Two drops of different names commute. -/
theorem Graph.drop_comm (top : Nat) (g : Graph α) {a b : α} (hab : a ≠ b) :
    ((g.drop top a).1.drop top b).1 = ((g.drop top b).1.drop top a).1 ∧
      ((g.drop top a).1.drop top b).2 = (g.drop top b).2 ∧
      ((g.drop top b).1.drop top a).2 = (g.drop top a).2 := by
  have hb := Graph.drop_congr top (Graph.drop_node_ne hab.symm : (g.drop top a).1.node b = _)
  have ha := Graph.drop_congr top (Graph.drop_node_ne hab : (g.drop top b).1.node a = _)
  refine ⟨?_, hb.1, ha.1⟩
  ext1 x
  by_cases hxa : x = a
  · subst hxa
    rw [Graph.drop_node_ne hab, ha.2]
  · by_cases hxb : x = b
    · subst hxb
      rw [hb.2, Graph.drop_node_ne hxa]
    · rw [Graph.drop_node_ne hxb, Graph.drop_node_ne hxa, Graph.drop_node_ne hxa,
        Graph.drop_node_ne hxb]

/-! ## Order independence -/

/-- Two steps from one state are equal or join in one step each. -/
theorem dropStep_diamond {s t u : Cascade α} (hst : DropStep top s t) (hsu : DropStep top s u) :
    t = u ∨ ∃ v, DropStep top t v ∧ DropStep top u v := by
  obtain ⟨a, wa, hwa, rfl⟩ := hst
  obtain ⟨b, wb, hwb, rfl⟩ := hsu
  by_cases hab : a = b
  · subst hab
    obtain rfl : wa = wb := by
      rw [hwa] at hwb
      exact (Multiset.cons_inj_right a).1 hwb
    exact Or.inl rfl
  · -- The two references are distinct, so each is still pending after the other.
    obtain ⟨w, rfl, rfl⟩ : ∃ w, wa = b ::ₘ w ∧ wb = a ::ₘ w := by
      rw [hwa] at hwb
      rcases Multiset.cons_eq_cons.1 hwb with ⟨he, _⟩ | ⟨_, w, h1, h2⟩
      · exact absurd he hab
      · exact ⟨w, h1, h2⟩
    obtain ⟨hg, hb, ha⟩ := Graph.drop_comm top s.graph hab
    right
    refine ⟨⟨((s.graph.drop top a).1.drop top b).1,
      (s.graph.drop top b).2.1 + ((s.graph.drop top a).2.1 + w),
      (s.graph.drop top b).2.2 + ((s.graph.drop top a).2.2 + s.left)⟩, ?_, ?_⟩
    · refine ⟨b, (s.graph.drop top a).2.1 + w, by simp [Multiset.add_cons], ?_⟩
      rw [hb]
    · refine ⟨a, (s.graph.drop top b).2.1 + w, by simp [Multiset.add_cons], ?_⟩
      rw [ha, hg, add_left_comm (s.graph.drop top b).2.1,
        add_left_comm (s.graph.drop top b).2.2]

/-- A finished cascade takes no step. -/
theorem not_dropStep_of_pending_zero {s t : Cascade α} (h : s.pending = 0) :
    ¬DropStep top s t := by
  intro hstep
  obtain ⟨a, w, hw, _⟩ := hstep
  rw [h] at hw
  exact (Multiset.cons_ne_zero hw.symm).elim

/-- The result of a cascade does not depend on the order in which references
are given up. -/
theorem Drains.unique {g₁ g₂ : Graph α} {f₁ f₂ : Multiset α} (h₁ : Drains top g w g₁ f₁)
    (h₂ : Drains top g w g₂ f₂) : g₁ = g₂ ∧ f₁ = f₂ := by
  have hdiamond : ∀ s t u : Cascade α, DropStep top s t → DropStep top s u →
      ∃ v, ReflGen (DropStep top) t v ∧ ReflTransGen (DropStep top) u v := by
    intro s t u hst hsu
    rcases dropStep_diamond hst hsu with rfl | ⟨v, htv, huv⟩
    · exact ⟨t, .refl, .refl⟩
    · exact ⟨v, .single htv, .single huv⟩
  obtain ⟨v, h₁v, h₂v⟩ := church_rosser hdiamond h₁ h₂
  have hnf : ∀ {g' : Graph α} {f' : Multiset α},
      ReflTransGen (DropStep top) ⟨g', 0, f'⟩ v → v = ⟨g', 0, f'⟩ := by
    intro g' f' h
    rcases h.cases_head with rfl | ⟨t, hstep, _⟩
    · rfl
    · exact absurd hstep (not_dropStep_of_pending_zero rfl)
  have he := (hnf h₁v).symm.trans (hnf h₂v)
  simp only [Cascade.mk.injEq, true_and] at he
  exact he

/-! ## Building a cascade -/

/-- A cascade is not disturbed by further pending references. -/
theorem reflTransGen_dropStep_frame {s t : Cascade α} (h : ReflTransGen (DropStep top) s t)
    (x y : Multiset α) :
    ReflTransGen (DropStep top) ⟨s.graph, s.pending + x, s.left + y⟩
      ⟨t.graph, t.pending + x, t.left + y⟩ := by
  induction h with
  | refl => exact .refl
  | tail _ hstep ih =>
    obtain ⟨a, w, hw, rfl⟩ := hstep
    refine ih.tail ⟨a, w + x, by rw [hw, Multiset.cons_add], ?_⟩
    simp [add_assoc]

theorem Drains.nil (top : Nat) (g : Graph α) : Drains top g 0 g 0 := .refl

/-- Cascades compose. -/
theorem Drains.add {g₁ g₂ : Graph α} {w₁ w₂ f₁ f₂ : Multiset α} (h₁ : Drains top g w₁ g₁ f₁)
    (h₂ : Drains top g₁ w₂ g₂ f₂) : Drains top g (w₁ + w₂) g₂ (f₁ + f₂) := by
  have h₁' := reflTransGen_dropStep_frame h₁ w₂ 0
  have h₂' := reflTransGen_dropStep_frame h₂ 0 f₁
  simp only [zero_add, add_zero] at h₁' h₂'
  have h := h₁'.trans h₂'
  rwa [add_comm f₂ f₁] at h

/-- A cascade that starts with the drop of `a`. -/
theorem Drains.head {g₁ : Graph α} {v e : Multiset α} (hd : g.drop top a = (g₁, v, e))
    (h : Drains top g₁ v g' f) : Drains top g {a} g' (e + f) := by
  have hstep : DropStep top (⟨g, {a}, 0⟩ : Cascade α) ⟨g₁, v, e⟩ :=
    ⟨a, 0, rfl, by simp [hd]⟩
  have h' := reflTransGen_dropStep_frame h 0 e
  simp only [add_zero, zero_add] at h'
  rw [add_comm f e] at h'
  exact ReflTransGen.head hstep h'

/-- A reference to a name without a node leaves the graph. -/
theorem Drains.outer (h : g.node a = none) : Drains top g {a} g {a} := by
  simpa using Drains.head (Graph.drop_outer h) (Drains.nil top g)

/-- A reference to a latched node disappears. -/
theorem Drains.latched (h : g.node a = some n) (hc : n.count = top) :
    Drains top g {a} g 0 := by
  simpa using Drains.head (Graph.drop_latched h hc) (Drains.nil top g)

/-- One of several references is given up. -/
theorem Drains.shared (h : g.node a = some n) (ht : n.count ≠ top) (hc : 1 < n.count) :
    Drains top g {a} (g.set a { n with count := n.count - 1 }) 0 := by
  simpa using Drains.head (Graph.drop_shared h ht hc) (Drains.nil top _)

/-- The last reference is given up, and then all that the node owned. -/
theorem Drains.last (h : g.node a = some n) (ht : n.count ≠ top) (hc : n.count = 1)
    (hd : Drains top (g.erase a) n.owns g' f) : Drains top g {a} g' f := by
  simpa using Drains.head (Graph.drop_last h ht hc) hd

/-! ## Invariants of a cascade -/

/-- A property of the graph and the pending references that every drop keeps
holds after the cascade. -/
theorem Drains.induct {P : Graph α → Multiset α → Prop} (x : Multiset α)
    (hstep : ∀ g a w, P g (a ::ₘ w) → P (g.drop top a).1 ((g.drop top a).2.1 + w))
    (h : Drains top g w g' f) (h0 : P g (w + x)) : P g' x := by
  have key : ∀ s t : Cascade α, ReflTransGen (DropStep top) s t →
      P s.graph (s.pending + x) → P t.graph (t.pending + x) := by
    intro s t hst hs
    induction hst with
    | refl => exact hs
    | tail _ hlast ih =>
      obtain ⟨a, v, hv, rfl⟩ := hlast
      rw [hv, Multiset.cons_add] at ih
      simpa [add_assoc] using hstep _ a (v + x) ih
  simpa using key _ _ h h0

/-- The references to a name that stays in place are conserved by a drop. -/
theorem Graph.refs_drop (top : Nat) (g : Graph α) (a x : α) (w : Multiset α)
    (hlatch : ∀ n, g.node a = some n → n.count ≠ top ∧ n.count ≠ 0) :
    (g.drop top a).1.refs ((g.drop top a).2.1 + w) x + (if x = a then 1 else 0) =
      g.refs (a ::ₘ w) x := by
  rw [Graph.refs_cons]
  rcases g.drop_cases top a with ⟨_, he⟩ | ⟨n, hn, hc, _⟩ | ⟨n, hn, _, _, he⟩ | ⟨n, hn, _, _, he⟩
  · simp [he]
  · rcases hc with hc | hc
    · exact absurd hc (hlatch n hn).1
    · exact absurd hc (hlatch n hn).2
  · have herase := g.inRefs_erase a x
    rw [Graph.owns_of_node hn] at herase
    rw [he]
    simp only
    rw [Graph.refs_add, Graph.refs, Graph.refs]
    omega
  · simp only [he, zero_add]
    rw [Graph.refs_set_count hn]

/-- A reference to an external name or to a latched node is forgotten. -/
theorem Sound.forget {outer : α → Prop} (h : Sound top outer g (a ::ₘ w))
    (ha : ∀ n, g.node a = some n → n.count = top) : Sound top outer g w where
  closed x hx := by
    have hle : g.refs w x ≤ g.refs (a ::ₘ w) x := by
      rw [Graph.refs_cons]
      omega
    exact h.closed x (hx.trans_le hle)
  outer_none := h.outer_none
  le_top := h.le_top
  counted x m hm := by
    by_cases hxa : x = a
    · exact Or.inl (ha m (hxa ▸ hm))
    · have hcount := h.counted x m hm
      rwa [Graph.refs_cons, if_neg hxa, add_zero] at hcount

/-- The last reference: the node leaves, and its references become pending. -/
theorem Sound.last {outer : α → Prop} (h : Sound top outer g (a ::ₘ w)) (hn : g.node a = some n)
    (ht : n.count ≠ top) (hc : n.count = 1) : Sound top outer (g.erase a) (n.owns + w) := by
  have hcons := fun x => g.refs_drop top a x w fun m hm => by
    rw [hn] at hm
    cases hm
    omega
  rw [Graph.drop_last hn ht hc] at hcons
  simp only at hcons
  have hlast : g.refs (a ::ₘ w) a = 1 := ((h.counted a n hn).resolve_left ht).symm.trans hc
  have hnode : ∀ {x : α} {m : Node α}, (g.erase a).node x = some m →
      x ≠ a ∧ g.node x = some m := by
    intro x m hm
    by_cases hxa : x = a
    · subst hxa
      simp at hm
    · rw [Graph.node_erase_ne g hxa] at hm
      exact ⟨hxa, hm⟩
  refine ⟨?_, ?_, ?_, ?_⟩
  · intro x hx
    have hxc := hcons x
    have hxa : x ≠ a := by
      intro he
      subst he
      rw [if_pos rfl] at hxc
      omega
    rw [Graph.node_erase_ne g hxa]
    exact h.closed x (by omega)
  · intro x hx
    by_cases hxa : x = a
    · subst hxa
      simp
    · rw [Graph.node_erase_ne g hxa]
      exact h.outer_none x hx
  · intro x m hm
    exact h.le_top x m (hnode hm).2
  · intro x m hm
    have hxc := hcons x
    rw [if_neg (hnode hm).1, add_zero] at hxc
    rw [hxc]
    exact h.counted x m (hnode hm).2

/-- One of several references: the counter goes down with them. -/
theorem Sound.shared {outer : α → Prop} (h : Sound top outer g (a ::ₘ w)) (hn : g.node a = some n)
    (ht : n.count ≠ top) (hc : 1 < n.count) :
    Sound top outer (g.set a { n with count := n.count - 1 }) w := by
  have hcons := fun x => g.refs_drop top a x w fun m hm => by
    rw [hn] at hm
    cases hm
    omega
  rw [Graph.drop_shared hn ht hc] at hcons
  simp only [zero_add] at hcons
  refine ⟨?_, ?_, ?_, ?_⟩
  · intro x hx
    by_cases hxa : x = a
    · subst hxa
      exact Or.inl (by simp)
    · rw [Graph.node_set_ne g _ hxa]
      have hxc := hcons x
      exact h.closed x (by omega)
  · intro x hx
    have hxn := h.outer_none x hx
    have hxa : x ≠ a := by
      intro he
      subst he
      rw [hn] at hxn
      cases hxn
    rw [Graph.node_set_ne g _ hxa]
    exact hxn
  · intro x m hm
    by_cases hxa : x = a
    · subst hxa
      simp only [Graph.node_set_self, Option.some.injEq] at hm
      subst hm
      exact (Nat.sub_le _ _).trans (h.le_top x n hn)
    · rw [Graph.node_set_ne g _ hxa] at hm
      exact h.le_top x m hm
  · intro x m hm
    have hxc := hcons x
    by_cases hxa : x = a
    · subst hxa
      simp only [Graph.node_set_self, Option.some.injEq] at hm
      subst hm
      rw [if_pos rfl] at hxc
      have hcount := (h.counted x n hn).resolve_left ht
      right
      simp only
      omega
    · rw [Graph.node_set_ne g _ hxa] at hm
      rw [if_neg hxa, add_zero] at hxc
      rw [hxc]
      exact h.counted x m hm

theorem Sound.drop {outer : α → Prop} (h : Sound top outer g (a ::ₘ w)) :
    Sound top outer (g.drop top a).1 ((g.drop top a).2.1 + w) := by
  rcases g.drop_cases top a with ⟨hn, he⟩ | ⟨n, hn, hc, he⟩ | ⟨n, hn, ht, hc, he⟩ |
    ⟨n, hn, ht, hc, he⟩
  · rw [he]
    simp only [zero_add]
    exact h.forget fun n hn' => by
      rw [hn] at hn'
      cases hn'
  · -- A counter that is counted is not zero.
    have htop : n.count = top := by
      rcases hc with hc | hzero
      · exact hc
      · refine (h.counted a n hn).resolve_right fun hcount => ?_
        rw [Graph.refs_cons, if_pos rfl] at hcount
        omega
    rw [he]
    simp only [zero_add]
    exact h.forget fun m hm => by
      rw [hn, Option.some.injEq] at hm
      exact hm ▸ htop
  · rw [he]
    exact h.last hn ht hc
  · rw [he]
    simp only [zero_add]
    exact h.shared hn ht hc

/-- A node that survives a drop owns what it owned, and its counter did not
grow. -/
theorem Graph.drop_node {b : α} {m : Node α} (h : (g.drop top a).1.node b = some m) :
    ∃ n, g.node b = some n ∧ m.owns = n.owns ∧ m.count ≤ n.count := by
  by_cases hba : b = a
  · subst hba
    rcases g.drop_cases top b with ⟨_, he⟩ | ⟨n, hn, _, he⟩ | ⟨n, _, _, _, he⟩ | ⟨n, hn, _, _, he⟩
    · rw [he] at h
      exact ⟨m, h, rfl, le_rfl⟩
    · rw [he] at h
      exact ⟨m, h, rfl, le_rfl⟩
    · rw [he] at h
      simp at h
    · rw [he] at h
      simp only [Graph.node_set_self, Option.some.injEq] at h
      subst h
      exact ⟨n, hn, rfl, Nat.sub_le _ _⟩
  · rw [Graph.drop_node_ne hba] at h
    exact ⟨m, h, rfl, le_rfl⟩

/-- A node that survives a cascade owns what it owned, and its counter did not
grow. -/
theorem Drains.node {b : α} {m : Node α} (h : Drains top g w g' f)
    (hm : g'.node b = some m) : ∃ n, g.node b = some n ∧ m.owns = n.owns ∧ m.count ≤ n.count := by
  refine h.induct (P := fun g₁ _ => ∀ b m, g₁.node b = some m →
    ∃ n, g.node b = some n ∧ m.owns = n.owns ∧ m.count ≤ n.count) 0 ?_ ?_ b m hm
  · intro g₁ a _ ih b m hbm
    obtain ⟨m₁, hm₁, ho₁, hc₁⟩ := Graph.drop_node hbm
    obtain ⟨n, hn, ho, hc⟩ := ih b m₁ hm₁
    exact ⟨n, hn, ho₁.trans ho, hc₁.trans hc⟩
  · intro b m hbm
    exact ⟨m, hbm, rfl, le_rfl⟩

/-- A latched node survives every cascade unchanged. -/
theorem Drains.node_latched (h : Drains top g w g' f) (hn : g.node a = some n)
    (hc : n.count = top) : g'.node a = some n := by
  refine h.induct (P := fun g₁ _ => g₁.node a = some n) 0 ?_ hn
  intro g₁ b _ ih
  by_cases hab : a = b
  · subst hab
    rw [Graph.drop_latched ih hc]
    exact ih
  · rw [Graph.drop_node_ne hab]
    exact ih

/-- A cascade stays within any set of names that contains the pending
references and what its members own. -/
theorem Drains.node_outside {P : α → Prop} (h : Drains top g w g' f) (hw : ∀ b ∈ w, P b)
    (hown : ∀ b n, P b → g.node b = some n → ∀ c ∈ n.owns, P c) (ha : ¬P a) :
    g'.node a = g.node a := by
  have hkey := h.induct (P := fun g₁ w₁ => (∀ b ∈ w₁, P b) ∧ g₁.node a = g.node a ∧
    ∀ b n, g₁.node b = some n → ∃ m, g.node b = some m ∧ n.owns = m.owns) 0 ?_
    ⟨by simpa using hw, rfl, fun b n hn => ⟨n, hn, rfl⟩⟩
  · exact hkey.2.1
  intro g₁ b w₁ hinv
  obtain ⟨hpend, hsame, hnodes⟩ := hinv
  have hb := hpend b (Multiset.mem_cons_self b w₁)
  refine ⟨?_, ?_, ?_⟩
  · intro c hc
    rcases Multiset.mem_add.1 hc with hc | hc
    · rcases g₁.drop_cases top b with ⟨_, he⟩ | ⟨n, _, _, he⟩ | ⟨n, hn, _, _, he⟩ | ⟨n, _, _, _, he⟩
      · simp [he] at hc
      · simp [he] at hc
      · obtain ⟨m, hm, ho⟩ := hnodes b n hn
        rw [he] at hc
        exact hown b m hb hm c (ho ▸ hc)
      · simp [he] at hc
    · exact hpend c (Multiset.mem_cons_of_mem hc)
  · have hab : a ≠ b := fun hab => ha (hab ▸ hb)
    rw [Graph.drop_node_ne hab, hsame]
  · intro c n hn
    obtain ⟨n₁, hn₁, ho₁, _⟩ := Graph.drop_node hn
    obtain ⟨m, hm, ho⟩ := hnodes c n₁ hn₁
    exact ⟨m, hm, ho₁.trans ho⟩

/-- A drop leaves no counter at zero. -/
theorem Graph.drop_positive (a : α) (hp : Positive g) : Positive (g.drop top a).1 := by
  intro b m hm
  by_cases hba : b = a
  · subst hba
    rcases g.drop_cases top b with ⟨_, he⟩ | ⟨n, _, _, he⟩ | ⟨n, _, _, _, he⟩ | ⟨n, _, _, hc, he⟩
    · rw [he] at hm
      exact hp b m hm
    · rw [he] at hm
      exact hp b m hm
    · rw [he] at hm
      simp at hm
    · simp only [he, Graph.node_set_self, Option.some.injEq] at hm
      subst hm
      exact Nat.sub_pos_of_lt hc
  · rw [Graph.drop_node_ne hba] at hm
    exact hp b m hm

theorem Drains.positive (h : Drains top g w g' f) (hp : Positive g) : Positive g' :=
  h.induct (P := fun g₁ _ => Positive g₁) 0 (fun _ a _ hp => Graph.drop_positive a hp) hp

/-- A cascade removes ownership edges only. -/
theorem Drains.acyclic (h : Drains top g w g' f) (hg : Acyclic g) : Acyclic g' := by
  obtain ⟨rank, hrank⟩ := hg
  refine ⟨rank, fun b a hba ha => ?_⟩
  obtain ⟨m, hm⟩ := Option.ne_none_iff_exists'.1 ha
  obtain ⟨n, hn, _⟩ := h.node hm
  refine hrank b a ?_ (by simp [hn])
  cases hb : g'.node b with
  | none => simp [Graph.owns_of_none hb] at hba
  | some mb =>
    obtain ⟨nb, hnb, ho, _⟩ := h.node hb
    rwa [Graph.owns_of_node hb, ho, ← Graph.owns_of_node hnb] at hba

/-- A drop conserves the references to an external name: each of them is
still there or has left the graph. -/
theorem Graph.refs_drop_outer (top : Nat) {x : α} (hx : g.node x = none) (a : α)
    (w : Multiset α) :
    g.refs (a ::ₘ w) x =
      (g.drop top a).1.refs ((g.drop top a).2.1 + w) x + (g.drop top a).2.2.count x := by
  have hne : ∀ {n}, g.node a = some n → x ≠ a := by
    intro n hn he
    subst he
    rw [hx] at hn
    cases hn
  rw [Graph.refs_cons]
  rcases g.drop_cases top a with ⟨_, he⟩ | ⟨n, hn, _, he⟩ | ⟨n, hn, _, _, he⟩ | ⟨n, hn, _, _, he⟩
  · simp [he, Multiset.count_singleton]
  · simp [he, hne hn]
  · have herase := g.inRefs_erase a x
    rw [Graph.owns_of_node hn] at herase
    simp only [he, if_neg (hne hn), Multiset.count_zero, add_zero]
    rw [Graph.refs_add, Graph.refs, Graph.refs]
    omega
  · simp only [he, zero_add, if_neg (hne hn), Multiset.count_zero, add_zero]
    rw [Graph.refs_set_count hn]

theorem Graph.drop_node_none {x : α} (hx : g.node x = none) (a : α) :
    (g.drop top a).1.node x = none := by
  by_cases hxa : x = a
  · subst hxa
    rw [Graph.drop_outer hx]
    exact hx
  · rw [Graph.drop_node_ne hxa]
    exact hx

/-- A cascade conserves the references to an external name. -/
theorem Drains.refs_outer {x : α} (y : Multiset α) (h : Drains top g w g' f)
    (hx : g.node x = none) : g.refs (w + y) x = g'.refs y x + f.count x := by
  have key : ∀ s t : Cascade α, ReflTransGen (DropStep top) s t → s.graph.node x = none →
      t.graph.node x = none ∧
        s.graph.refs (s.pending + y) x + s.left.count x =
          t.graph.refs (t.pending + y) x + t.left.count x := by
    intro s t hst hs
    induction hst with
    | refl => exact ⟨hs, rfl⟩
    | tail _ hlast ih =>
      obtain ⟨a, v, hv, rfl⟩ := hlast
      obtain ⟨hnone, heq⟩ := ih
      refine ⟨Graph.drop_node_none hnone a, ?_⟩
      rw [hv, Multiset.cons_add, Graph.refs_drop_outer top hnone] at heq
      rw [heq]
      simp only
      rw [Multiset.count_add, add_assoc (Graph.drop top _ a).2.1]
      omega
  simpa using (key _ _ h hx).2

/-- A cascade keeps the counting discipline. -/
theorem Drains.sound {outer : α → Prop} {x : Multiset α} (h : Drains top g w g' f)
    (hs : Sound top outer g (w + x)) : Sound top outer g' x :=
  h.induct (P := fun g w => Sound top outer g w) x (fun _ _ _ hs => hs.drop) hs

end Ownership
