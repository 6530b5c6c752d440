import Mathlib.Algebra.BigOperators.Group.Finset.Basic
import Mathlib.Algebra.Order.BigOperators.Group.Finset
import Mathlib.Algebra.Order.Group.Multiset
import Mathlib.Data.Finset.Max
import Mathlib.Data.Multiset.Count
import Mathlib.Tactic.SplitIfs

/-!
# Ownership graphs

A reference-counted object graph over an arbitrary type of names.  A live
name carries a counter and the multiset of the references that it owns.  A
reference is an occurrence of a name.  It is either owned by a live node or
pending, that is held by somebody outside the graph.  Names without a node
may be referred to as well.  They stand for things that the graph does not
count.

The counter of a node saturates at a parameter `top`.  A node whose counter
has reached `top` is latched: its counter is never touched again.

* `Graph.refs` counts the references to a name, owned and pending.
* `Sound` is the counting discipline: an unlatched counter is the number of
  references to its node, and every reference names a live node or an
  external name.
* `Acyclic` says that ownership decreases some rank.
* `eq_empty_of_sound` is absence of leaks: a sound acyclic graph without
  latched nodes and without pending references is empty.
-/

namespace Ownership

variable {α : Type*}

/-- What the graph knows about one live name. -/
structure Node (α : Type*) where
  count : Nat
  owns : Multiset α

/-- A finite set of live names with their nodes. -/
structure Graph (α : Type*) where
  node : α → Option (Node α)
  support : Finset α
  mem_support : ∀ a, a ∈ support ↔ node a ≠ none

namespace Graph

/-- A graph is determined by its nodes. -/
@[ext] theorem ext {g h : Graph α} (hn : ∀ a, g.node a = h.node a) : g = h := by
  obtain ⟨node, support, hs⟩ := g
  obtain ⟨node', support', hs'⟩ := h
  obtain rfl : node = node' := funext hn
  obtain rfl : support = support' := by
    ext a
    rw [hs, hs']
  rfl

theorem mem_support_of_node {g : Graph α} {a : α} {n : Node α} (h : g.node a = some n) :
    a ∈ g.support := by
  rw [g.mem_support, h]
  exact Option.some_ne_none n

/-- The references that a name owns, none if it has no node. -/
def owns (g : Graph α) (a : α) : Multiset α :=
  match g.node a with
  | some n => n.owns
  | none => 0

theorem owns_of_node {g : Graph α} {a : α} {n : Node α} (h : g.node a = some n) :
    g.owns a = n.owns := by
  simp [owns, h]

theorem owns_of_none {g : Graph α} {a : α} (h : g.node a = none) : g.owns a = 0 := by
  simp [owns, h]

variable [DecidableEq α]

/-- Store a node under a name. -/
def set (g : Graph α) (a : α) (n : Node α) : Graph α where
  node := Function.update g.node a (some n)
  support := insert a g.support
  mem_support b := by
    by_cases hb : b = a
    · subst hb
      simp
    · simp [hb, g.mem_support]

/-- Remove a name from the graph. -/
def erase (g : Graph α) (a : α) : Graph α where
  node := Function.update g.node a none
  support := g.support.erase a
  mem_support b := by
    by_cases hb : b = a
    · subst hb
      simp
    · simp [hb, g.mem_support]

@[simp] theorem node_set_self (g : Graph α) (a : α) (n : Node α) :
    (g.set a n).node a = some n := by
  simp [set]

@[simp] theorem node_set_ne (g : Graph α) {a b : α} (n : Node α) (h : b ≠ a) :
    (g.set a n).node b = g.node b := by
  simp [set, h]

@[simp] theorem node_erase_self (g : Graph α) (a : α) : (g.erase a).node a = none := by
  simp [erase]

@[simp] theorem node_erase_ne (g : Graph α) {a b : α} (h : b ≠ a) :
    (g.erase a).node b = g.node b := by
  simp [erase, h]

theorem erase_of_none {g : Graph α} {a : α} (h : g.node a = none) : g.erase a = g := by
  ext1 b
  by_cases hb : b = a
  · subst hb
    rw [node_erase_self, h]
  · rw [node_erase_ne g hb]

/-- Erasing a node makes room. -/
theorem card_erase_le {g : Graph α} {a : α} {n : Node α} (h : g.node a = some n) {k : Nat}
    (hk : g.support.card ≤ k + 1) : (g.erase a).support.card ≤ k := by
  have hmem := mem_support_of_node h
  have hcard : (g.erase a).support.card = g.support.card - 1 := Finset.card_erase_of_mem hmem
  omega

theorem set_set (g : Graph α) (a : α) (n m : Node α) : (g.set a n).set a m = g.set a m := by
  ext1 b
  by_cases hb : b = a
  · subst hb
    simp
  · simp [hb]

theorem owns_set_ne (g : Graph α) {a b : α} (n : Node α) (h : b ≠ a) :
    (g.set a n).owns b = g.owns b := by
  simp [owns, h]

theorem owns_erase_ne (g : Graph α) {a b : α} (h : b ≠ a) :
    (g.erase a).owns b = g.owns b := by
  simp [owns, h]

/-! ## Counting references -/

/-- The number of references to `x` that live nodes own. -/
def inRefs (g : Graph α) (x : α) : Nat :=
  ∑ b ∈ g.support, (g.owns b).count x

/-- The number of references to `x`, pending in `w` or owned. -/
def refs (g : Graph α) (w : Multiset α) (x : α) : Nat :=
  w.count x + g.inRefs x

/-- Summing over any set of names that covers the support counts the same
references. -/
theorem inRefs_eq_sum (g : Graph α) {s : Finset α} (hs : g.support ⊆ s) (x : α) :
    g.inRefs x = ∑ b ∈ s, (g.owns b).count x := by
  refine Finset.sum_subset hs ?_
  intro b _ hb
  have hnone : g.node b = none := by
    by_contra hne
    exact hb ((g.mem_support b).2 hne)
  simp [owns_of_none hnone]

/-- The references of one node, split from the references of the others. -/
theorem inRefs_split (g : Graph α) (a x : α) :
    g.inRefs x = (g.owns a).count x + ∑ b ∈ g.support.erase a, (g.owns b).count x := by
  rw [g.inRefs_eq_sum (Finset.subset_insert a g.support),
    ← Finset.add_sum_erase _ _ (Finset.mem_insert_self a g.support),
    Finset.erase_insert_eq_erase]

theorem inRefs_set (g : Graph α) (a : α) (n : Node α) (x : α) :
    (g.set a n).inRefs x + (g.owns a).count x = g.inRefs x + n.owns.count x := by
  have hsum : ∑ b ∈ g.support.erase a, ((g.set a n).owns b).count x =
      ∑ b ∈ g.support.erase a, (g.owns b).count x := by
    refine Finset.sum_congr rfl ?_
    intro b hb
    rw [owns_set_ne g n (Finset.ne_of_mem_erase hb)]
  have hself : (g.set a n).owns a = n.owns := owns_of_node (node_set_self g a n)
  rw [inRefs_split (g.set a n) a x, inRefs_split g a x, hself,
    show (g.set a n).support.erase a = g.support.erase a by simp [set], hsum]
  omega

theorem inRefs_erase (g : Graph α) (a x : α) :
    (g.erase a).inRefs x + (g.owns a).count x = g.inRefs x := by
  have hsum : ∑ b ∈ g.support.erase a, ((g.erase a).owns b).count x =
      ∑ b ∈ g.support.erase a, (g.owns b).count x := by
    refine Finset.sum_congr rfl ?_
    intro b hb
    rw [owns_erase_ne g (Finset.ne_of_mem_erase hb)]
  have hself : (g.erase a).owns a = 0 := owns_of_none (node_erase_self g a)
  rw [inRefs_split (g.erase a) a x, inRefs_split g a x, hself,
    show (g.erase a).support.erase a = g.support.erase a by simp [erase], hsum]
  simp
  omega

/-- A change of the counter leaves every reference in place. -/
theorem inRefs_set_count {g : Graph α} {a : α} {n : Node α} (h : g.node a = some n)
    (k : Nat) (x : α) : (g.set a { n with count := k }).inRefs x = g.inRefs x := by
  have hset := g.inRefs_set a { n with count := k } x
  rw [owns_of_node h] at hset
  simp only at hset
  omega

theorem refs_set_count {g : Graph α} {a : α} {n : Node α} (h : g.node a = some n)
    (k : Nat) (w : Multiset α) (x : α) :
    (g.set a { n with count := k }).refs w x = g.refs w x := by
  rw [refs, refs, inRefs_set_count h]

@[simp] theorem refs_cons (g : Graph α) (w : Multiset α) (a x : α) :
    g.refs (a ::ₘ w) x = g.refs w x + if x = a then 1 else 0 := by
  simp [refs, Multiset.count_cons]
  omega

theorem refs_add (g : Graph α) (v w : Multiset α) (x : α) :
    g.refs (v + w) x = v.count x + g.refs w x := by
  simp [refs]
  omega

/-- A reference that a live node owns is a reference. -/
theorem refs_pos_of_owns {g : Graph α} {b x : α} (w : Multiset α) (h : x ∈ g.owns b) :
    0 < g.refs w x := by
  have hpos : 0 < (g.owns b).count x := Multiset.count_pos.2 h
  have hsplit := g.inRefs_split b x
  rw [refs]
  omega

theorem refs_pos_of_mem {g : Graph α} {w : Multiset α} {x : α} (h : x ∈ w) :
    0 < g.refs w x := by
  have hpos : 0 < w.count x := Multiset.count_pos.2 h
  rw [refs]
  omega

end Graph

variable [DecidableEq α]

/-! ## The counting discipline -/

/-- The counting discipline of a graph with the pending references `w`.  The
names in `outer` have no node, and a reference names them or a live node. -/
structure Sound (top : Nat) (outer : α → Prop) (g : Graph α) (w : Multiset α) : Prop where
  closed : ∀ x, 0 < g.refs w x → g.node x ≠ none ∨ outer x
  outer_none : ∀ x, outer x → g.node x = none
  le_top : ∀ a n, g.node a = some n → n.count ≤ top
  counted : ∀ a n, g.node a = some n → n.count = top ∨ n.count = g.refs w a

/-- No counter is zero. -/
def Positive (g : Graph α) : Prop := ∀ a n, g.node a = some n → 0 < n.count

/-- Every ownership edge between live nodes decreases some rank. -/
def Acyclic (g : Graph α) : Prop :=
  ∃ rank : α → Nat, ∀ b a, a ∈ g.owns b → g.node a ≠ none → rank a < rank b

section

variable {top : Nat} {outer : α → Prop} {g : Graph α} {w : Multiset α}

/-- A name that is neither live nor external has no reference. -/
theorem Sound.refs_eq_zero (h : Sound top outer g w) {x : α} (hn : g.node x = none)
    (ho : ¬outer x) : g.refs w x = 0 := by
  by_contra hne
  rcases h.closed x (Nat.pos_of_ne_zero hne) with hlive | hout
  · exact hlive hn
  · exact ho hout

/-- The counter of a name with a reference is not zero. -/
theorem Sound.pos_of_refs (htop : 0 < top) (h : Sound top outer g w) {a : α} {n : Node α}
    (hn : g.node a = some n) (hr : 0 < g.refs w a) : 0 < n.count := by
  rcases h.counted a n hn with hc | hc <;> omega

/-- More names may become external. -/
theorem Sound.outer_mono {outer' : α → Prop} (h : Sound top outer g w)
    (hle : ∀ x, outer x → outer' x) (hnone : ∀ x, outer' x → g.node x = none) :
    Sound top outer' g w :=
  ⟨fun x hx => (h.closed x hx).imp id (hle x), hnone, h.le_top, h.counted⟩

/-- Pending references to external names do not count. -/
theorem Sound.drop_outer (h : Sound top outer g w) (hw : ∀ x ∈ w, outer x) :
    Sound top outer g 0 := by
  have hle : ∀ x, g.refs 0 x ≤ g.refs w x := fun x => by
    rw [Graph.refs, Graph.refs, Multiset.count_zero]
    omega
  refine ⟨fun x hx => h.closed x (hx.trans_le (hle x)), h.outer_none, h.le_top, fun a n hn => ?_⟩
  have hzero : w.count a = 0 := by
    refine Multiset.count_eq_zero.2 fun ha => ?_
    rw [h.outer_none a (hw a ha)] at hn
    cases hn
  refine (h.counted a n hn).imp id fun hc => ?_
  rw [hc, Graph.refs, Graph.refs, hzero, Multiset.count_zero]

/-- A sound acyclic graph without latched nodes and without pending
references is empty: nothing leaks. -/
theorem eq_none_of_sound (h : Sound top outer g 0) (hpos : Positive g) (hacyc : Acyclic g)
    (hlatch : ∀ a n, g.node a = some n → n.count ≠ top) (a : α) : g.node a = none := by
  obtain ⟨rank, hrank⟩ := hacyc
  -- A live node of greatest rank has an owner, and the owner has a greater rank.
  by_contra hne
  have hmem : a ∈ g.support := (g.mem_support a).2 hne
  obtain ⟨m, hm, hmax⟩ := g.support.exists_max_image rank ⟨a, hmem⟩
  obtain ⟨n, hn⟩ := Option.ne_none_iff_exists'.1 ((g.mem_support m).1 hm)
  have hcount : n.count = g.refs 0 m := by
    rcases h.counted m n hn with htop | hc
    · exact absurd htop (hlatch m n hn)
    · exact hc
  have hin : 0 < g.inRefs m := by
    have hn0 := hpos m n hn
    rw [hcount] at hn0
    simpa [Graph.refs] using hn0
  obtain ⟨b, hb, hbm⟩ : ∃ b ∈ g.support, (g.owns b).count m ≠ 0 := by
    by_contra hall
    push Not at hall
    rw [Graph.inRefs, Finset.sum_eq_zero hall] at hin
    exact Nat.lt_irrefl 0 hin
  have hown : m ∈ g.owns b := Multiset.count_ne_zero.1 hbm
  have hlt := hrank b m hown (by simp [hn])
  exact absurd (hmax b hb) (by omega)

end

end Ownership
