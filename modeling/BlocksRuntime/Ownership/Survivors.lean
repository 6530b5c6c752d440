import BlocksRuntime.Ownership.Cascade
import Mathlib.Data.Fintype.Card
import Mathlib.Data.Set.Finite.Basic

/-!
# What survives a cascade

Counting finds garbage only where no cycle and no latched counter keeps it
alive.  `Drains.survivors` says exactly what a cascade leaves behind, on any
sound graph and whatever the order of its steps: the nodes that can be reached
from a reference that is still pending, from a cycle, or from a latched node.

* `Graph.Owns` is one ownership edge, and `Graph.Anchor` is where a chain of
  edges may start.
* `Graph.kept_cases` says what keeps a node: itself, or an owner that is kept.
* `kept_survives` is the forward direction, a step lemma.  A node that is kept
  has another reference than the one that is dropped.
* `survivor_kept` is the backward direction.  Otherwise each survivor has an
  owner of the same kind, and a finite graph has no room for that.
-/

namespace Ownership

open Relation

variable {α : Type*}

/-- The node `b` owns a reference to `a`. -/
def Graph.Owns (g : Graph α) (b a : α) : Prop := a ∈ g.owns b

/-- What keeps a node alive by itself, while the references `x` stay pending. -/
inductive Graph.Anchor (top : Nat) (g : Graph α) (x : Multiset α) (a : α) : Prop where
  | pending (h : a ∈ x)
  | latched (n : Node α) (hn : g.node a = some n) (h : n.count = top)
  | cycle (h : TransGen g.Owns a a)

/-- A node that can be reached from an anchor. -/
def Graph.Kept (top : Nat) (g : Graph α) (x : Multiset α) (a : α) : Prop :=
  ∃ b, g.Anchor top x b ∧ ReflTransGen g.Owns b a

section

variable {top : Nat} {g g' : Graph α} {x : Multiset α} {a b : α}

theorem Graph.Anchor.kept (h : g.Anchor top x a) : g.Kept top x a := ⟨a, h, .refl⟩

theorem Graph.Kept.owned (h : g.Kept top x b) (hba : g.Owns b a) : g.Kept top x a := by
  obtain ⟨c, hc, hcb⟩ := h
  exact ⟨c, hc, hcb.tail hba⟩

/-- A node on a cycle has an owner on the cycle. -/
theorem Graph.cycle_owner (h : TransGen g.Owns a a) :
    ∃ b, TransGen g.Owns b b ∧ g.Owns b a := by
  obtain ⟨b, hab, hba⟩ := TransGen.tail'_iff.1 h
  exact ⟨b, TransGen.head' hba hab, hba⟩

/-- What keeps a node. -/
theorem Graph.kept_cases (h : g.Kept top x a) :
    a ∈ x ∨ (∃ n, g.node a = some n ∧ n.count = top) ∨ ∃ b, g.Kept top x b ∧ g.Owns b a := by
  obtain ⟨c, hc, hca⟩ := h
  rcases hca.cases_tail with rfl | ⟨b, hcb, hba⟩
  · cases hc with
    | pending h => exact Or.inl h
    | latched n hn h => exact Or.inr (Or.inl ⟨n, hn, h⟩)
    | cycle h =>
      obtain ⟨b, hb, hba⟩ := Graph.cycle_owner h
      exact Or.inr (Or.inr ⟨b, (Graph.Anchor.cycle hb).kept, hba⟩)
  · exact Or.inr (Or.inr ⟨b, ⟨c, hc, hcb⟩, hba⟩)

/-- An owner is live. -/
theorem Graph.Owns.live (h : g.Owns b a) : g.node b ≠ none := fun hn => by
  unfold Graph.Owns at h
  rw [Graph.owns_of_none hn] at h
  exact Multiset.notMem_zero a h

/-- A finite graph in which every member of a nonempty set has an owner in the
set has a cycle in the set. -/
theorem Graph.exists_cycle {P : α → Prop} (hP : ∀ a, P a → g.node a ≠ none)
    (hown : ∀ a, P a → ∃ b, P b ∧ g.Owns b a) (ha : P a) : ∃ c, P c ∧ TransGen g.Owns c c := by
  by_contra hno
  let r : {a // P a} → {a // P a} → Prop := fun b a => TransGen g.Owns b.1 a.1
  have hfin : Finite {a // P a} :=
    (g.support.finite_toSet.subset fun a ha => (g.mem_support a).2 (hP a ha)).to_subtype
  have htrans : IsTrans _ r := ⟨fun _ _ _ h h' => TransGen.trans h h'⟩
  have hirrefl : Std.Irrefl r := ⟨fun c h => hno ⟨c.1, c.2, h⟩⟩
  obtain ⟨m, _, hmin⟩ := (Finite.wellFounded_of_trans_of_irrefl r).has_min Set.univ
    ⟨⟨a, ha⟩, trivial⟩
  obtain ⟨b, hb, hbm⟩ := hown m.1 m.2
  exact hmin ⟨b, hb⟩ trivial (TransGen.single hbm)

end

variable [DecidableEq α] {top : Nat} {outer : α → Prop} {g g₁ g' : Graph α} {w x f : Multiset α}
  {a : α}

/-! ## What is kept survives -/

/-- The kept nodes are still there. -/
structure Preserved (top : Nat) (g : Graph α) (x : Multiset α) (g₁ : Graph α) : Prop where
  owns : ∀ a n, g.node a = some n → g.Kept top x a → ∃ m, g₁.node a = some m ∧ m.owns = n.owns
  latched : ∀ a n, g.node a = some n → n.count = top → g₁.node a = some n

omit [DecidableEq α] in
theorem Preserved.refl (top : Nat) (g : Graph α) (x : Multiset α) : Preserved top g x g :=
  ⟨fun _ n hn _ => ⟨n, hn, rfl⟩, fun _ _ hn _ => hn⟩

/-- The reference that is dropped is not the last one to a kept node. -/
theorem Preserved.not_last (h : Preserved top g x g₁) (hs : Sound top outer g₁ (a ::ₘ w + x))
    {m : Node α} (hk : g.Kept top x a) (hm : g₁.node a = some m) (ht : m.count ≠ top) :
    m.count ≠ 1 := by
  intro hone
  have hcount : m.count = g₁.refs (a ::ₘ w + x) a := (hs.counted a m hm).resolve_left ht
  rw [Multiset.cons_add, Graph.refs_cons, if_pos rfl] at hcount
  have hother : 0 < g₁.refs (w + x) a := by
    rcases Graph.kept_cases hk with hx | ⟨n', hn', htop⟩ | ⟨b, hb, hba⟩
    · exact Graph.refs_pos_of_mem (Multiset.mem_add.2 (Or.inr hx))
    · rw [h.latched a n' hn' htop, Option.some.injEq] at hm
      exact absurd (hm ▸ htop) ht
    · obtain ⟨nb, hnb⟩ := Option.ne_none_iff_exists'.1 hba.live
      obtain ⟨mb, hmb, howns⟩ := h.owns b nb hnb hb
      refine Graph.refs_pos_of_owns _ (b := b) ?_
      rw [Graph.owns_of_node hmb, howns, ← Graph.owns_of_node hnb]
      exact hba
  omega

theorem Preserved.drop (h : Preserved top g x g₁) (hs : Sound top outer g₁ (a ::ₘ w + x)) :
    Preserved top g x (g₁.drop top a).1 := by
  rcases g₁.drop_cases top a with ⟨_, he⟩ | ⟨_, _, _, he⟩ | ⟨m, hm, ht, hone, he⟩ |
    ⟨m, hm, ht, _, he⟩
  · rw [he]
    exact h
  · rw [he]
    exact h
  · -- The node leaves, so it was not kept.
    rw [he]
    refine ⟨fun b n hn hk => ?_, fun b n hn htop => ?_⟩
    · have hba : b ≠ a := fun hba => by
        subst hba
        exact h.not_last hs hk hm ht hone
      rw [Graph.node_erase_ne _ hba]
      exact h.owns b n hn hk
    · have hba : b ≠ a := fun hba => by
        subst hba
        rw [h.latched b n hn htop, Option.some.injEq] at hm
        exact ht (hm ▸ htop)
      rw [Graph.node_erase_ne _ hba]
      exact h.latched b n hn htop
  · rw [he]
    refine ⟨fun b n hn hk => ?_, fun b n hn htop => ?_⟩
    · by_cases hba : b = a
      · subst hba
        obtain ⟨m', hm', howns⟩ := h.owns b n hn hk
        obtain rfl : m = m' := Option.some.inj (hm.symm.trans hm')
        exact ⟨_, Graph.node_set_self _ _ _, howns⟩
      · rw [Graph.node_set_ne _ _ hba]
        exact h.owns b n hn hk
    · have hba : b ≠ a := fun hba => by
        subst hba
        rw [h.latched b n hn htop, Option.some.injEq] at hm
        exact ht (hm ▸ htop)
      rw [Graph.node_set_ne _ _ hba]
      exact h.latched b n hn htop

/-- A cascade preserves what is kept. -/
theorem kept_survives (h : Drains top g w g' f) (hs : Sound top outer g (w + x)) :
    Preserved top g x g' := by
  refine (h.induct (P := fun g₁ w₁ => Sound top outer g₁ (w₁ + x) ∧ Preserved top g x g₁) 0 ?_
    ⟨by rwa [add_zero], Preserved.refl top g x⟩).2
  rintro g₁ a w₁ ⟨hs₁, hp⟩
  refine ⟨?_, hp.drop hs₁⟩
  rw [Multiset.cons_add] at hs₁
  rw [add_assoc]
  exact hs₁.drop

/-! ## What survives is kept -/

/-- An edge between survivors was an edge before. -/
theorem Drains.owns_before (h : Drains top g w g' f) {b : α} (hba : g'.Owns b a) : g.Owns b a := by
  obtain ⟨mb, hmb⟩ := Option.ne_none_iff_exists'.1 hba.live
  obtain ⟨nb, hnb, howns, _⟩ := h.node hmb
  unfold Graph.Owns at hba ⊢
  rwa [Graph.owns_of_node hnb, ← howns, ← Graph.owns_of_node hmb]

/-- A survivor that nothing keeps has an owner of the same kind. -/
theorem survivor_owner (h : Drains top g w g' f) (hs : Sound top outer g (w + x))
    (hp : Positive g) (ha : g'.node a ≠ none) (hk : ¬g.Kept top x a) :
    ∃ b, (g'.node b ≠ none ∧ ¬g.Kept top x b) ∧ g'.Owns b a := by
  obtain ⟨m, hm⟩ := Option.ne_none_iff_exists'.1 ha
  obtain ⟨n, hn, _, hle⟩ := h.node hm
  have hs' := h.sound hs
  have htop : m.count ≠ top := fun he => by
    have hlatched : n.count = top := le_antisymm (hs.le_top a n hn) (he ▸ hle)
    exact hk (Graph.Anchor.latched n hn hlatched).kept
  have hcount : m.count = g'.refs x a := (hs'.counted a m hm).resolve_left htop
  have hpos := h.positive hp a m hm
  have hx : x.count a = 0 := Multiset.count_eq_zero.2 fun hmem =>
    hk (Graph.Anchor.pending hmem).kept
  rw [hcount, Graph.refs, hx, zero_add, Graph.inRefs] at hpos
  obtain ⟨b, _, hb⟩ := Finset.exists_ne_zero_of_sum_ne_zero hpos.ne'
  have hba : g'.Owns b a := Multiset.count_ne_zero.1 hb
  exact ⟨b, ⟨hba.live, fun hkb => hk (hkb.owned (h.owns_before hba))⟩, hba⟩

theorem survivor_kept (h : Drains top g w g' f) (hs : Sound top outer g (w + x))
    (hp : Positive g) (ha : g'.node a ≠ none) : g.Kept top x a := by
  by_contra hk
  obtain ⟨c, hc, hcycle⟩ := Graph.exists_cycle
    (P := fun b => g'.node b ≠ none ∧ ¬g.Kept top x b) (fun _ hb => hb.1)
    (fun b hb => survivor_owner h hs hp hb.1 hb.2) ⟨ha, hk⟩
  have hcycle' : TransGen g.Owns c c :=
    TransGen.mono (p := g.Owns) (fun _ _ hba => h.owns_before hba) _ _ hcycle
  exact hc.2 (Graph.Anchor.cycle hcycle').kept

/-- What a cascade leaves behind. -/
theorem Drains.survivors (h : Drains top g w g' f) (hs : Sound top outer g (w + x))
    (hp : Positive g) (a : α) : g'.node a ≠ none ↔ g.node a ≠ none ∧ g.Kept top x a := by
  refine ⟨fun ha => ⟨?_, survivor_kept h hs hp ha⟩, fun ⟨ha, hk⟩ => ?_⟩
  · obtain ⟨m, hm⟩ := Option.ne_none_iff_exists'.1 ha
    obtain ⟨n, hn, _⟩ := h.node hm
    exact hn ▸ Option.some_ne_none n
  · obtain ⟨n, hn⟩ := Option.ne_none_iff_exists'.1 ha
    obtain ⟨m, hm, _⟩ := (kept_survives h hs).owns a n hn hk
    exact hm ▸ Option.some_ne_none m

end Ownership
