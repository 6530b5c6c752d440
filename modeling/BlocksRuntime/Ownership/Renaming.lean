import BlocksRuntime.Ownership.Growth
import Mathlib.Algebra.BigOperators.Group.Finset.Basic
import Mathlib.Data.Multiset.Basic
import Mathlib.Logic.Equiv.Basic

/-!
# Growth up to the names of the fresh nodes

Two growths of one graph may take the references in another order and pick
other names for the nodes that they build.

* `exists_perm_of_pairs` makes a permutation of all names from the pairs of
  names that correspond.
* `Graph.refs_rename` says that renaming a graph renames its reference counts.
* `Grows.count_rename` is the result: when the owned and the pending references
  of two growths agree up to a renaming, then so do their counters.
* `Grows.taken_rename` says the same of the external references taken.
-/

namespace Ownership

variable {α : Type*} [DecidableEq α]

/-! ## Permutations from pairs -/

/-- A one-to-one list of pairs extends to a permutation that moves nothing
else. -/
theorem exists_perm_of_pairs (ps : List (α × α)) (hfst : (ps.map Prod.fst).Nodup)
    (hsnd : (ps.map Prod.snd).Nodup) :
    ∃ ρ : Equiv.Perm α, (∀ p ∈ ps, ρ p.1 = p.2) ∧
      ∀ a, a ∉ ps.map Prod.fst → a ∉ ps.map Prod.snd → ρ a = a := by
  induction ps with
  | nil => exact ⟨Equiv.refl α, by simp, fun a _ _ => rfl⟩
  | cons p ps ih =>
    obtain ⟨a, b⟩ := p
    rw [List.map_cons, List.nodup_cons] at hfst hsnd
    obtain ⟨ρ, hpairs, hfix⟩ := ih hfst.2 hsnd.2
    -- Exchange `b` with the name that `a` has so far.
    refine ⟨ρ.trans (Equiv.swap (ρ a) b), ?_, ?_⟩
    · intro q hq
      rcases List.mem_cons.1 hq with rfl | hq
      · exact Equiv.swap_apply_left _ _
      · have hne : ρ q.1 ≠ ρ a := fun h =>
          hfst.1 (List.mem_map.2 ⟨q, hq, ρ.injective h⟩)
        have hneb : ρ q.1 ≠ b := fun h => by
          rw [hpairs q hq] at h
          exact hsnd.1 (List.mem_map.2 ⟨q, hq, h⟩)
        rw [Equiv.trans_apply, Equiv.swap_apply_of_ne_of_ne hne hneb, hpairs q hq]
    · intro x hx hx'
      rw [List.map_cons, List.mem_cons, not_or] at hx hx'
      have hfixed := hfix x hx.2 hx'.2
      have hne : ρ x ≠ ρ a := fun h => hx.1 (ρ.injective h)
      have hneb : ρ x ≠ b := by
        rw [hfixed]
        exact hx'.1
      rw [Equiv.trans_apply, Equiv.swap_apply_of_ne_of_ne hne hneb, hfixed]

/-! ## Renaming a graph -/

section

variable {top : Nat} {outer : α → Prop} {g g₁ g₂ : Graph α} {w w₁ w₂ e₁ e₂ : Multiset α}
  {ρ : Equiv.Perm α}

/-- Renaming the owned references renames the counts of owned references. -/
theorem Graph.inRefs_rename (h : ∀ a, g₂.owns (ρ a) = (g₁.owns a).map ρ) (x : α) :
    g₂.inRefs (ρ x) = g₁.inRefs x := by
  let names := g₁.support ∪ g₂.support.map ρ.symm.toEmbedding
  have hcover : g₂.support ⊆ names.map ρ.toEmbedding := by
    intro b hb
    rw [Finset.mem_map_equiv]
    exact Finset.mem_union_right _ (Finset.mem_map_of_mem ρ.symm.toEmbedding hb)
  rw [g₂.inRefs_eq_sum hcover, g₁.inRefs_eq_sum Finset.subset_union_left, Finset.sum_map]
  refine Finset.sum_congr rfl fun b _ => ?_
  show (g₂.owns (ρ b)).count (ρ x) = (g₁.owns b).count x
  rw [h, Multiset.count_map_eq_count' ρ _ ρ.injective]

theorem Graph.refs_rename (h : ∀ a, g₂.owns (ρ a) = (g₁.owns a).map ρ) (hw : w₂ = w₁.map ρ)
    (x : α) : g₂.refs w₂ (ρ x) = g₁.refs w₁ x := by
  rw [Graph.refs, Graph.refs, Graph.inRefs_rename h, hw,
    Multiset.count_map_eq_count' ρ _ ρ.injective]

/-! ## Two growths of one graph -/

/-- The counters of two growths that end in the same graph, up to the names of
the nodes that they build. -/
theorem Grows.count_rename (htop : 0 < top) (h₁ : Grows top outer g w g₁ w₁ e₁)
    (h₂ : Grows top outer g w g₂ w₂ e₂) (hs : Sound top outer g w)
    (howns : ∀ a, g₂.owns (ρ a) = (g₁.owns a).map ρ) (hw : w₂ = w₁.map ρ)
    (hfix : ∀ a, g.node a ≠ none → ρ a = a) {x : α} (hx₁ : g₁.node x ≠ none)
    (hx₂ : g₂.node (ρ x) ≠ none) : g₂.count (ρ x) = g₁.count x := by
  obtain ⟨_, _, hcount₁⟩ := h₁.count htop hs x
  obtain ⟨_, _, hcount₂⟩ := h₂.count htop hs (ρ x)
  rw [hcount₁ hx₁, hcount₂ hx₂, Graph.refs_rename howns hw]
  by_cases hx : g.node x = none
  · have hρx : g.node (ρ x) = none := by
      by_contra hne
      have hsame : ρ x = x := ρ.injective (hfix _ hne)
      rw [hsame] at hne
      exact hne hx
    rw [hs.fresh htop h₁ hx₁ hx, hs.fresh htop h₂ hx₂ hρx]
    simp only [Graph.count, hx, hρx]
  · rw [hfix x hx]

/-- Two such growths take the same external references. -/
theorem Grows.taken_rename (htop : 0 < top) (h₁ : Grows top outer g w g₁ w₁ e₁)
    (h₂ : Grows top outer g w g₂ w₂ e₂) (hs : Sound top outer g w)
    (howns : ∀ a, g₂.owns (ρ a) = (g₁.owns a).map ρ) (hw : w₂ = w₁.map ρ) {x : α}
    (hx : outer x) (hfix : ρ x = x) : e₂.count x = e₁.count x := by
  have hrefs₁ := h₁.refs_outer htop hs hx
  have hrefs₂ := h₂.refs_outer htop hs hx
  have hrename := Graph.refs_rename howns hw x
  rw [hfix] at hrename
  omega

end

end Ownership
