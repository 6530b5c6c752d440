import BlocksRuntime.Ownership.Graph
import Mathlib.Logic.Relation

/-!
# Growth of an ownership graph

The other half of reference counting.  `GrowStep.acquire` takes one more
reference to a live node or to an external name.  `GrowStep.build` makes a
fresh node that takes over some of the pending references, with counter one
for the reference to it that becomes pending.

* `Grows` is a sequence of such steps, with `Grows.acquire`, `Grows.build`
  and `Grows.trans` as its rules.
* `Grows.sound` and `Grows.acyclic` carry the invariants.
* `Grows.count` is the closed form of the counters: every counter went up by
  the number of new references to its node, and stopped at `top`.  It does
  not mention the order of the steps.
-/

namespace Ownership

open Relation

variable {α : Type*} [DecidableEq α]

/-- One more reference to a name: the counter goes up and stops at `top`. -/
def Graph.acquire (top : Nat) (g : Graph α) (a : α) : Graph α :=
  match g.node a with
  | none => g
  | some n => if n.count = top then g else g.set a { n with count := n.count + 1 }

/-- The counter of a name, zero if it has no node. -/
def Graph.count (g : Graph α) (a : α) : Nat :=
  match g.node a with
  | none => 0
  | some n => n.count

/-- A graph that grows, with the pending references and the external
references taken so far. -/
structure Growth (α : Type*) where
  graph : Graph α
  pending : Multiset α
  taken : Multiset α

/-- One step of growth. -/
inductive GrowStep (top : Nat) (outer : α → Prop) : Growth α → Growth α → Prop where
  | acquire (g : Graph α) (w e : Multiset α) (a : α) (h : g.node a ≠ none) :
      GrowStep top outer ⟨g, w, e⟩ ⟨g.acquire top a, a ::ₘ w, e⟩
  | outer (g : Graph α) (w e : Multiset α) (a : α) (h : outer a) :
      GrowStep top outer ⟨g, w, e⟩ ⟨g, a ::ₘ w, a ::ₘ e⟩
  | build (g : Graph α) (w e owns : Multiset α) (a : α) (hn : g.node a = none)
      (ho : ¬outer a) :
      GrowStep top outer ⟨g, owns + w, e⟩ ⟨g.set a ⟨1, owns⟩, a ::ₘ w, e⟩

/-- A sequence of growth steps.  The external references in `e` were taken. -/
def Grows (top : Nat) (outer : α → Prop) (g : Graph α) (w : Multiset α) (g' : Graph α)
    (w' e : Multiset α) : Prop :=
  ReflTransGen (GrowStep top outer) ⟨g, w, 0⟩ ⟨g', w', e⟩

variable {top : Nat} {outer : α → Prop} {g g' : Graph α} {w w' e : Multiset α} {a : α}
  {n : Node α}

/-! ## Acquiring -/

theorem Graph.acquire_latched (h : g.node a = some n) (hc : n.count = top) :
    g.acquire top a = g := by
  simp [Graph.acquire, h, hc]

theorem Graph.acquire_of_ne (h : g.node a = some n) (hc : n.count ≠ top) :
    g.acquire top a = g.set a { n with count := n.count + 1 } := by
  simp [Graph.acquire, h, hc]

theorem Graph.acquire_node_ne {b : α} (h : b ≠ a) : (g.acquire top a).node b = g.node b := by
  unfold Graph.acquire
  split
  · rfl
  · split_ifs <;> simp [h]

theorem Graph.acquire_node_self (h : g.node a = some n) (hle : n.count ≤ top) :
    (g.acquire top a).node a = some { n with count := min top (n.count + 1) } := by
  by_cases hc : n.count = top
  · have hmin : min top (n.count + 1) = n.count := by omega
    rw [Graph.acquire_latched h hc, h, hmin]
  · rw [Graph.acquire_of_ne h hc, Graph.node_set_self, Nat.min_eq_right (by omega)]

theorem Graph.acquire_eq_set (h : g.node a = some n) (hle : n.count ≤ top) :
    g.acquire top a = g.set a { n with count := min top (n.count + 1) } := by
  ext1 b
  by_cases hb : b = a
  · subst hb
    rw [Graph.acquire_node_self h hle, Graph.node_set_self]
  · rw [Graph.acquire_node_ne hb, Graph.node_set_ne g _ hb]

theorem Graph.acquire_refs (g : Graph α) (a x : α) (w : Multiset α) :
    (g.acquire top a).refs w x = g.refs w x := by
  unfold Graph.acquire
  split
  · rfl
  · next n hn =>
    split_ifs
    · rfl
    · rw [Graph.refs_set_count hn]

theorem Graph.acquire_owns (g : Graph α) (a b : α) :
    (g.acquire top a).owns b = g.owns b := by
  by_cases hba : b = a
  · subst hba
    unfold Graph.acquire
    split
    · rfl
    · next n hn =>
      split_ifs
      · rfl
      · simp [Graph.owns, hn]
  · simp [Graph.owns, Graph.acquire_node_ne hba]

theorem Graph.acquire_node_none {b : α} :
    (g.acquire top a).node b = none ↔ g.node b = none := by
  by_cases hba : b = a
  · subst hba
    unfold Graph.acquire
    split
    · rfl
    · next n hn =>
      split_ifs <;> simp [hn]
  · rw [Graph.acquire_node_ne hba]

theorem Graph.refs_set_build (hn : g.node a = none) (owns w : Multiset α) (k : Nat) (x : α) :
    (g.set a ⟨k, owns⟩).refs (a ::ₘ w) x =
      g.refs (owns + w) x + if x = a then 1 else 0 := by
  have hset := g.inRefs_set a ⟨k, owns⟩ x
  rw [Graph.owns_of_none hn, Multiset.count_zero] at hset
  simp only at hset
  rw [Graph.refs_cons, Graph.refs_add, Graph.refs, Graph.refs]
  omega

/-! ## Building a growth -/

theorem Grows.nil (top : Nat) (outer : α → Prop) (g : Graph α) (w : Multiset α) :
    Grows top outer g w g w 0 := .refl

/-- A growth is not disturbed by further pending references. -/
theorem reflTransGen_growStep_frame {s t : Growth α}
    (h : ReflTransGen (GrowStep top outer) s t) (x y : Multiset α) :
    ReflTransGen (GrowStep top outer) ⟨s.graph, s.pending + x, s.taken + y⟩
      ⟨t.graph, t.pending + x, t.taken + y⟩ := by
  induction h with
  | refl => exact .refl
  | tail _ hstep ih =>
    refine ih.tail ?_
    cases hstep with
    | acquire g w e a h =>
      simp only [Multiset.cons_add]
      exact .acquire g _ _ a h
    | outer g w e a h =>
      simp only [Multiset.cons_add]
      exact .outer g _ _ a h
    | build g w e owns a hn ho =>
      simp only [Multiset.cons_add, add_assoc]
      exact .build g _ _ owns a hn ho

theorem Grows.frame (h : Grows top outer g w g' w' e) (x : Multiset α) :
    Grows top outer g (w + x) g' (w' + x) e := by
  simpa [Grows] using reflTransGen_growStep_frame h x 0

/-- Growths compose. -/
theorem Grows.trans {g₁ g₂ : Graph α} {w₁ w₂ e₁ e₂ : Multiset α}
    (h₁ : Grows top outer g w g₁ w₁ e₁) (h₂ : Grows top outer g₁ w₁ g₂ w₂ e₂) :
    Grows top outer g w g₂ w₂ (e₁ + e₂) := by
  have h₂' := reflTransGen_growStep_frame h₂ 0 e₁
  simp only [add_zero, zero_add] at h₂'
  rw [add_comm e₁ e₂]
  exact ReflTransGen.trans h₁ h₂'

theorem Grows.acquire (h : g.node a ≠ none) :
    Grows top outer g w (g.acquire top a) (a ::ₘ w) 0 :=
  .single (.acquire g w 0 a h)

theorem Grows.takeOuter (h : outer a) : Grows top outer g w g (a ::ₘ w) {a} :=
  .single (.outer g w 0 a h)

theorem Grows.build (hn : g.node a = none) (ho : ¬outer a) (owns : Multiset α) :
    Grows top outer g (owns + w) (g.set a ⟨1, owns⟩) (a ::ₘ w) 0 :=
  .single (.build g w 0 owns a hn ho)

/-! ## Invariants of growth -/

theorem Sound.acquire (h : Sound top outer g w) (ha : g.node a ≠ none) :
    Sound top outer (g.acquire top a) (a ::ₘ w) := by
  obtain ⟨n, hn⟩ := Option.ne_none_iff_exists'.1 ha
  have hself := Graph.acquire_node_self hn (h.le_top a n hn)
  refine ⟨?_, ?_, ?_, ?_⟩
  · intro x hx
    rw [ne_eq, Graph.acquire_node_none]
    by_cases hxa : x = a
    · subst hxa
      exact Or.inl ha
    · rw [Graph.acquire_refs, Graph.refs_cons, if_neg hxa, add_zero] at hx
      exact h.closed x hx
  · intro x hx
    rw [Graph.acquire_node_none]
    exact h.outer_none x hx
  · intro x m hm
    by_cases hxa : x = a
    · subst hxa
      rw [hself, Option.some.injEq] at hm
      subst hm
      exact Nat.min_le_left _ _
    · rw [Graph.acquire_node_ne hxa] at hm
      exact h.le_top x m hm
  · intro x m hm
    rw [Graph.acquire_refs, Graph.refs_cons]
    by_cases hxa : x = a
    · subst hxa
      rw [hself, Option.some.injEq] at hm
      subst hm
      rw [if_pos rfl]
      have hle := h.le_top x n hn
      rcases h.counted x n hn with hc | hc
      · simp only
        omega
      · simp only
        omega
    · rw [Graph.acquire_node_ne hxa] at hm
      rw [if_neg hxa, add_zero]
      exact h.counted x m hm

theorem Sound.takeOuter (h : Sound top outer g w) (ha : outer a) : Sound top outer g (a ::ₘ w) := by
  refine ⟨?_, h.outer_none, h.le_top, ?_⟩
  · intro x hx
    by_cases hxa : x = a
    · subst hxa
      exact Or.inr ha
    · rw [Graph.refs_cons, if_neg hxa, add_zero] at hx
      exact h.closed x hx
  · intro x m hm
    have hxa : x ≠ a := by
      intro he
      subst he
      rw [h.outer_none x ha] at hm
      cases hm
    rw [Graph.refs_cons, if_neg hxa, add_zero]
    exact h.counted x m hm

theorem Sound.build {owns : Multiset α} (htop : 0 < top) (h : Sound top outer g (owns + w))
    (hn : g.node a = none) (ho : ¬outer a) :
    Sound top outer (g.set a ⟨1, owns⟩) (a ::ₘ w) := by
  have hrefs := Graph.refs_set_build hn owns w 1
  have hzero := h.refs_eq_zero hn ho
  refine ⟨?_, ?_, ?_, ?_⟩
  · intro x hx
    by_cases hxa : x = a
    · subst hxa
      exact Or.inl (by simp)
    · rw [hrefs, if_neg hxa, add_zero] at hx
      rw [Graph.node_set_ne g _ hxa]
      exact h.closed x hx
  · intro x hx
    have hxa : x ≠ a := by
      intro he
      subst he
      exact ho hx
    rw [Graph.node_set_ne g _ hxa]
    exact h.outer_none x hx
  · intro x m hm
    by_cases hxa : x = a
    · subst hxa
      rw [Graph.node_set_self, Option.some.injEq] at hm
      subst hm
      exact htop
    · rw [Graph.node_set_ne g _ hxa] at hm
      exact h.le_top x m hm
  · intro x m hm
    rw [hrefs]
    by_cases hxa : x = a
    · subst hxa
      rw [Graph.node_set_self, Option.some.injEq] at hm
      subst hm
      right
      simp [hzero]
    · rw [Graph.node_set_ne g _ hxa] at hm
      rw [if_neg hxa, add_zero]
      exact h.counted x m hm

theorem Grows.step_sound {s t : Growth α} (htop : 0 < top) (h : GrowStep top outer s t)
    (hs : Sound top outer s.graph s.pending) : Sound top outer t.graph t.pending := by
  cases h with
  | acquire g w e a ha => exact hs.acquire ha
  | outer g w e a ha => exact hs.takeOuter ha
  | build g w e owns a hn ho => exact hs.build htop hn ho

/-- Growth keeps the counting discipline. -/
theorem Grows.sound (htop : 0 < top) (h : Grows top outer g w g' w' e)
    (hs : Sound top outer g w) : Sound top outer g' w' := by
  have key : ∀ s t : Growth α, ReflTransGen (GrowStep top outer) s t →
      Sound top outer s.graph s.pending → Sound top outer t.graph t.pending := by
    intro s t hst hs
    induction hst with
    | refl => exact hs
    | tail _ hstep ih => exact Grows.step_sound htop hstep ih
  exact key _ _ h hs

/-- One step of growth moves the counter of a name by the number of new
references, up to `top`, and makes no live name dead. -/
theorem GrowStep.count {s t : Growth α} (htop : 0 < top) (h : GrowStep top outer s t)
    (hs : Sound top outer s.graph s.pending) (x : α) :
    s.graph.refs s.pending x ≤ t.graph.refs t.pending x ∧
      (t.graph.node x = none → s.graph.node x = none) ∧
      (t.graph.node x ≠ none → t.graph.count x =
        min top (s.graph.count x + (t.graph.refs t.pending x - s.graph.refs s.pending x))) := by
  -- A counter that the step does not touch is below `top` already.
  have hkeep : s.graph.count x = min top (s.graph.count x + 0) := by
    cases hx : s.graph.node x with
    | none => simp [Graph.count, hx]
    | some n =>
      have := hs.le_top x n hx
      simp [Graph.count, hx, this]
  cases h with
  | acquire g w e a ha =>
    simp only [Graph.acquire_refs, Graph.refs_cons, Graph.acquire_node_none]
    simp only at hkeep hs
    refine ⟨by omega, id, fun _ => ?_⟩
    by_cases hxa : x = a
    · subst hxa
      obtain ⟨n, hn⟩ := Option.ne_none_iff_exists'.1 ha
      have hself := Graph.acquire_node_self hn (hs.le_top x n hn)
      simp only [Graph.count, hself, hn, if_pos]
      omega
    · rw [if_neg hxa, add_zero, Nat.sub_self, ← hkeep]
      simp [Graph.count, Graph.acquire_node_ne hxa]
  | outer g w e a ha =>
    simp only [Graph.refs_cons]
    simp only at hkeep hs
    refine ⟨by omega, id, fun hx => ?_⟩
    have hxa : x ≠ a := by
      intro he
      subst he
      exact hx (hs.outer_none x ha)
    rw [if_neg hxa, add_zero, Nat.sub_self, ← hkeep]
  | build g w e owns a hn ho =>
    simp only [Graph.refs_set_build hn]
    simp only at hkeep hs
    by_cases hxa : x = a
    · subst hxa
      have hzero := hs.refs_eq_zero hn ho
      refine ⟨by omega, fun _ => hn, fun _ => ?_⟩
      simp only [Graph.count, Graph.node_set_self, hn, hzero, if_pos]
      omega
    · refine ⟨by omega, fun hx => ?_, fun _ => ?_⟩
      · rwa [Graph.node_set_ne g _ hxa] at hx
      · rw [if_neg hxa, add_zero, Nat.sub_self, ← hkeep]
        simp [Graph.count, hxa]

/-- The counter of a node after growth.  It went up by the number of new
references and stopped at `top`. -/
theorem Grows.count (htop : 0 < top) (h : Grows top outer g w g' w' e)
    (hs : Sound top outer g w) (x : α) :
    g.refs w x ≤ g'.refs w' x ∧ (g'.node x = none → g.node x = none) ∧
      (g'.node x ≠ none →
        g'.count x = min top (g.count x + (g'.refs w' x - g.refs w x))) := by
  have key : ∀ s t : Growth α, ReflTransGen (GrowStep top outer) s t →
      Sound top outer s.graph s.pending →
      Sound top outer t.graph t.pending ∧
        s.graph.refs s.pending x ≤ t.graph.refs t.pending x ∧
        (t.graph.node x = none → s.graph.node x = none) ∧
        (t.graph.node x ≠ none → t.graph.count x =
          min top (s.graph.count x +
            (t.graph.refs t.pending x - s.graph.refs s.pending x))) := by
    intro s t hst hs
    induction hst with
    | refl =>
      refine ⟨hs, le_rfl, id, fun hx => ?_⟩
      obtain ⟨n, hn⟩ := Option.ne_none_iff_exists'.1 hx
      have := hs.le_top x n hn
      simp [Graph.count, hn, this]
    | @tail t u hst hstep ih =>
      obtain ⟨iht, ihle, ihn, ihc⟩ := ih
      obtain ⟨hle, hn, hc⟩ := hstep.count htop iht x
      refine ⟨Grows.step_sound htop hstep iht, ihle.trans hle, fun hu => ihn (hn hu),
        fun hu => ?_⟩
      rw [hc hu]
      by_cases ht : t.graph.node x = none
      · -- The node was built by this step: nothing referred to it before.
        have hout : ¬outer x := fun ho =>
          hu ((Grows.step_sound htop hstep iht).outer_none x ho)
        have hzero := iht.refs_eq_zero ht hout
        have hs0 : s.graph.count x = 0 := by simp [Graph.count, ihn ht]
        have ht0 : t.graph.count x = 0 := by simp [Graph.count, ht]
        omega
      · have := ihc ht
        omega
  exact (key _ _ h hs).2

/-- A growth takes no node away and keeps what the nodes own. -/
theorem Grows.node (h : Grows top outer g w g' w' e) (hn : g.node a = some n) :
    ∃ m, g'.node a = some m ∧ m.owns = n.owns := by
  have key : ∀ s t : Growth α, ReflTransGen (GrowStep top outer) s t →
      (∃ m, s.graph.node a = some m ∧ m.owns = n.owns) →
      ∃ m, t.graph.node a = some m ∧ m.owns = n.owns := by
    intro s t hst hs
    induction hst with
    | refl => exact hs
    | tail _ hstep ih =>
      obtain ⟨m, hm, ho⟩ := ih
      cases hstep with
      | acquire g w e b hb =>
        simp only at hm
        obtain ⟨m', hm'⟩ := Option.ne_none_iff_exists'.1
          (fun h => by simp [Graph.acquire_node_none.1 h] at hm :
            (g.acquire top b).node a ≠ none)
        refine ⟨m', hm', ?_⟩
        rw [← Graph.owns_of_node hm', Graph.acquire_owns, Graph.owns_of_node hm, ho]
      | outer g w e b hb => exact ⟨m, hm, ho⟩
      | build g w e owns b hb _ =>
        simp only at hm
        have hab : a ≠ b := by
          intro he
          subst he
          rw [hb] at hm
          cases hm
        exact ⟨m, by simp [hab, hm], ho⟩
  exact key _ _ h ⟨n, hn, rfl⟩

/-- Every edge of the graph that leads to a live node of `P` decreases some
rank. -/
def AcyclicOn (P : α → Prop) (g : Graph α) : Prop :=
  ∃ rank : α → Nat, ∀ b a, a ∈ g.owns b → P a → g.node a ≠ none → rank a < rank b

/-- Growth adds no ownership cycle: a fresh node is above everything that it
takes over. -/
theorem Grows.acyclicOn {P : α → Prop} (htop : 0 < top) (h : Grows top outer g w g' w' e)
    (hs : Sound top outer g w) (hg : AcyclicOn P g) : AcyclicOn P g' := by
  have key : ∀ s t : Growth α, ReflTransGen (GrowStep top outer) s t →
      Sound top outer s.graph s.pending ∧ AcyclicOn P s.graph →
      Sound top outer t.graph t.pending ∧ AcyclicOn P t.graph := by
    intro s t hst hs
    induction hst with
    | refl => exact hs
    | tail _ hstep ih =>
      obtain ⟨ihs, rank, hrank⟩ := ih
      refine ⟨Grows.step_sound htop hstep ihs, ?_⟩
      cases hstep with
      | acquire g w e a ha =>
        refine ⟨rank, fun b c hc hP hn => hrank b c ?_ hP ?_⟩
        · rwa [Graph.acquire_owns] at hc
        · rwa [ne_eq, Graph.acquire_node_none] at hn
      | outer g w e a ha => exact ⟨rank, hrank⟩
      | build g w e owns a hn ho =>
        simp only at ihs hrank
        have hzero := ihs.refs_eq_zero hn ho
        have hfree : ∀ b, a ∉ g.owns b := fun b hb => by
          have := Graph.refs_pos_of_owns (owns + w) hb
          omega
        have hself : a ∉ owns := fun hmem => by
          have := Graph.refs_pos_of_mem (g := g) (Multiset.mem_add.2 (Or.inl hmem) : a ∈ owns + w)
          omega
        -- The new node gets a rank above all live names.
        refine ⟨fun x => if x = a then (g.support.sup rank) + 1 else rank x, ?_⟩
        intro b c hc hP hcn
        by_cases hba : b = a
        · subst hba
          rw [Graph.owns_of_node (Graph.node_set_self g b _)] at hc
          have hcb : c ≠ b := fun h => hself (h ▸ hc)
          rw [Graph.node_set_ne g _ hcb] at hcn
          dsimp only
          rw [if_neg hcb, if_pos rfl]
          exact Nat.lt_succ_of_le (Finset.le_sup (f := rank) ((g.mem_support c).2 hcn))
        · rw [Graph.owns_set_ne g _ hba] at hc
          have hca : c ≠ a := fun h => hfree b (h ▸ hc)
          rw [Graph.node_set_ne g _ hca] at hcn
          dsimp only
          rw [if_neg hca, if_neg hba]
          exact hrank b c hc hP hcn
  exact (key _ _ h ⟨hs, hg⟩).2

theorem Grows.acyclic (htop : 0 < top) (h : Grows top outer g w g' w' e)
    (hs : Sound top outer g w) (hg : Acyclic g) : Acyclic g' := by
  obtain ⟨rank, hrank⟩ := hg
  obtain ⟨rank', hrank'⟩ := h.acyclicOn (P := fun _ => True) htop hs
    ⟨rank, fun b a hba _ ha => hrank b a hba ha⟩
  exact ⟨rank', fun b a hba ha => hrank' b a hba trivial ha⟩

/-- The nodes that a growth builds own one another without a cycle, whatever
the graph was before. -/
theorem Grows.acyclicOn_built (htop : 0 < top) (h : Grows top outer g w g' w' e)
    (hs : Sound top outer g w) : AcyclicOn (fun a => g.node a = none) g' :=
  h.acyclicOn htop hs ⟨fun _ => 0, fun _ _ _ hnone hne => absurd hnone hne⟩

/-- A name that a growth makes live has no reference before. -/
theorem Sound.fresh (htop : 0 < top) (h : Grows top outer g w g' w' e)
    (hs : Sound top outer g w) {x : α} (hx : g'.node x ≠ none) (hn : g.node x = none) :
    g.refs w x = 0 :=
  hs.refs_eq_zero hn fun ho => hx ((h.sound htop hs).outer_none x ho)

theorem Graph.acquire_positive (a : α) (hp : Positive g) : Positive (g.acquire top a) := by
  unfold Graph.acquire
  split
  · exact hp
  · next n hn =>
    split_ifs
    · exact hp
    · intro b m hm
      by_cases hba : b = a
      · subst hba
        rw [Graph.node_set_self, Option.some.injEq] at hm
        subst hm
        exact Nat.succ_pos _
      · rw [Graph.node_set_ne g _ hba] at hm
        exact hp b m hm

/-- Growth leaves no counter at zero. -/
theorem Grows.positive (h : Grows top outer g w g' w' e) (hp : Positive g) : Positive g' := by
  have key : ∀ s t : Growth α, ReflTransGen (GrowStep top outer) s t →
      Positive s.graph → Positive t.graph := by
    intro s t hst hs
    induction hst with
    | refl => exact hs
    | tail _ hstep ih =>
      cases hstep with
      | acquire g w e a ha => exact Graph.acquire_positive a ih
      | outer g w e a ha => exact ih
      | build g w e owns a hn ho =>
        intro b m hm
        by_cases hba : b = a
        · subst hba
          rw [Graph.node_set_self, Option.some.injEq] at hm
          subst hm
          exact Nat.one_pos
        · rw [Graph.node_set_ne g _ hba] at hm
          exact ih b m hm
  exact key _ _ h hp

/-- External references are conserved: each reference to an external name was
there before or was taken. -/
theorem Grows.refs_outer {x : α} (htop : 0 < top) (h : Grows top outer g w g' w' e)
    (hs : Sound top outer g w) (hx : outer x) : g'.refs w' x = g.refs w x + e.count x := by
  have key : ∀ s t : Growth α, ReflTransGen (GrowStep top outer) s t →
      Sound top outer s.graph s.pending →
      Sound top outer t.graph t.pending ∧
        t.graph.refs t.pending x + s.taken.count x =
          s.graph.refs s.pending x + t.taken.count x := by
    intro s t hst hs
    induction hst with
    | refl => exact ⟨hs, rfl⟩
    | tail _ hstep ih =>
      obtain ⟨ihs, ih⟩ := ih
      refine ⟨Grows.step_sound htop hstep ihs, ?_⟩
      cases hstep with
      | acquire g w e a ha =>
        simp only at ih ihs
        have hxa : x ≠ a := by
          intro he
          subst he
          exact ha (ihs.outer_none x hx)
        simp only [Graph.acquire_refs, Graph.refs_cons, if_neg hxa, add_zero]
        exact ih
      | outer g w e a ha =>
        simp only at ih
        simp only [Graph.refs_cons, Multiset.count_cons]
        omega
      | build g w e owns a hn ho =>
        simp only at ih
        have hxa : x ≠ a := by
          intro he
          subst he
          exact ho hx
        simp only [Graph.refs_set_build hn, if_neg hxa, add_zero]
        exact ih
  simpa using (key _ _ h hs).2

end Ownership
