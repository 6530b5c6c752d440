import BlocksRuntime.Ownership.Cascade
import BlocksRuntime.Ownership.Growth

/-!
# A cascade that undoes a growth

A growth takes references, and a cascade gives up the ones that it made
pending.  Some of the new references may stay behind: those to fresh names
that own nothing.

* `KeepsNodes` says that one graph has the nodes of another, with what they own.
* `Drains.keepsNodes` says that the cascade cannot take an old node: its old
  references are still there beside the pending one.
* `Undoable` is a growth and the cascade after it.  The old nodes are what they
  were (`Undoable.node_eq`), the fresh ones are gone except those left behind,
  whose counter is one (`Undoable.left_behind`), and the external references
  given up are the ones that were taken (`Undoable.left_eq`).
-/

namespace Ownership

variable {α : Type*} {top : Nat} {outer : α → Prop} {g g' g'' : Graph α}
  {w m y e f : Multiset α}

/-- Every node of `g` is in `g'`, owns the same there, and is still latched
if it was. -/
def KeepsNodes (top : Nat) (g g' : Graph α) : Prop :=
  ∀ a n, g.node a = some n →
    ∃ n', g'.node a = some n' ∧ n'.owns = n.owns ∧ (n.count = top → n'.count = top)

variable [DecidableEq α]

/-! ## Comparing references -/

theorem KeepsNodes.inRefs_le (h : KeepsNodes top g g') (x : α) : g.inRefs x ≤ g'.inRefs x := by
  have hsub : g.support ⊆ g'.support := by
    intro a ha
    obtain ⟨n, hn⟩ := Option.ne_none_iff_exists'.1 ((g.mem_support a).1 ha)
    obtain ⟨n', hn', _⟩ := h a n hn
    exact Graph.mem_support_of_node hn'
  rw [g.inRefs_eq_sum hsub]
  refine Finset.sum_le_sum fun a _ => ?_
  cases hn : g.node a with
  | none => simp [Graph.owns_of_none hn]
  | some n =>
    obtain ⟨n', hn', howns, _⟩ := h a n hn
    rw [Graph.owns_of_node hn, Graph.owns_of_node hn', howns]

/-- Two graphs whose names own the same have the same references. -/
theorem Graph.inRefs_congr (h : ∀ a, g'.owns a = g.owns a) (x : α) :
    g'.inRefs x = g.inRefs x := by
  have hleft : g'.support ⊆ g.support ∪ g'.support := Finset.subset_union_right
  have hright : g.support ⊆ g.support ∪ g'.support := Finset.subset_union_left
  rw [g'.inRefs_eq_sum hleft, g.inRefs_eq_sum hright]
  exact Finset.sum_congr rfl fun a _ => by rw [h]

/-! ## Old nodes in a cascade -/

/-- One drop cannot take an old node.  Its old references and the dropped one
are at least two. -/
theorem KeepsNodes.drop {v x : Multiset α} {a : α} (hs : Sound top outer g w) (hp : Positive g)
    (hs' : Sound top outer g' (a ::ₘ (v + (x + w)))) (h : KeepsNodes top g g') :
    KeepsNodes top g (g'.drop top a).1 := by
  intro b n hn
  obtain ⟨n', hn', howns, hlatched⟩ := h b n hn
  by_cases hba : b = a
  · subst hba
    rcases g'.drop_cases top b with ⟨hnone, _⟩ | ⟨_, _, _, he⟩ | ⟨n₁, hn₁, ht, hc, _⟩ |
      ⟨n₁, hn₁, ht, hc, he⟩
    · rw [hnone] at hn'
      cases hn'
    · rw [he]
      exact ⟨n', hn', howns, hlatched⟩
    · obtain rfl : n₁ = n' := Option.some.inj (hn₁.symm.trans hn')
      have hrefs : 0 < g.refs w b := by
        rcases hs.counted b n hn with hc' | hc'
        · exact absurd (hlatched hc') ht
        · exact hc' ▸ hp b n hn
      have hcount : n₁.count = g'.refs (b ::ₘ (v + (x + w))) b :=
        (hs'.counted b n₁ hn₁).resolve_left ht
      have hle := h.inRefs_le b
      rw [Graph.refs] at hrefs
      rw [Graph.refs_cons, if_pos rfl, Graph.refs, Multiset.count_add, Multiset.count_add] at hcount
      omega
    · obtain rfl : n₁ = n' := Option.some.inj (hn₁.symm.trans hn')
      rw [he]
      exact ⟨_, Graph.node_set_self g' b _, howns, fun hc' => absurd (hlatched hc') ht⟩
  · rw [Graph.drop_node_ne hba]
    exact ⟨n', hn', howns, hlatched⟩

/-- A cascade from references that were not there before takes no old node. -/
theorem Drains.keepsNodes {x : Multiset α} (hs : Sound top outer g w) (hp : Positive g)
    (hs' : Sound top outer g' (y + (x + w))) (h : KeepsNodes top g g')
    (hd : Drains top g' y g'' f) : KeepsNodes top g g'' := by
  refine (hd.induct (P := fun g₁ v => Sound top outer g₁ (v + (x + w)) ∧ KeepsNodes top g g₁) 0
    ?_ ⟨by simpa using hs', h⟩).2
  intro g₁ a v hinv
  obtain ⟨hs₁, hk₁⟩ := hinv
  rw [Multiset.cons_add] at hs₁
  refine ⟨?_, hk₁.drop hs hp hs₁⟩
  rw [add_assoc]
  exact hs₁.drop

/-! ## Undoing a growth -/

/-- A growth from `g` and `w` that made `y` and `m` pending, and the names in `m`
are fresh and own nothing.  No counter is latched that was not latched before. -/
structure Undoable (top : Nat) (outer : α → Prop) (g : Graph α) (w : Multiset α) (g' : Graph α)
    (y m e : Multiset α) : Prop where
  grows : Grows top outer g w g' (y + (m + w)) e
  nodup : m.Nodup
  fresh : ∀ a ∈ m, g.node a = none
  bare : ∀ a ∈ m, ∃ n, g'.node a = some n ∧ n.owns = 0
  unlatched : ∀ a n', g'.node a = some n' → n'.count = top →
    ∃ n, g.node a = some n ∧ n.count = top

/-- A growth keeps the nodes that were there. -/
theorem Grows.keepsNodes {w' : Multiset α} (htop : 0 < top) (h : Grows top outer g w g' w' e)
    (hs : Sound top outer g w) : KeepsNodes top g g' := by
  intro a n hn
  obtain ⟨n', hn', howns⟩ := h.node hn
  refine ⟨n', hn', howns, fun hc => ?_⟩
  obtain ⟨_, _, hcount⟩ := h.count htop hs a
  have hlive : g'.node a ≠ none := by simp [hn']
  have hmin := hcount hlive
  simp only [Graph.count, hn, hn'] at hmin
  omega

section

variable (htop : 0 < top) (hs : Sound top outer g w) (hp : Positive g)
  (h : Undoable top outer g w g' y m e) (hd : Drains top g' y g'' f)

include htop hs hp h hd

omit hp in
theorem Undoable.sound : Sound top outer g'' (m + w) :=
  hd.sound (h.grows.sound htop hs)

theorem Undoable.old {a : α} {n : Node α} (hn : g.node a = some n) :
    ∃ n', g''.node a = some n' ∧ n'.owns = n.owns ∧ (n.count = top → n'.count = top) :=
  hd.keepsNodes hs hp (h.grows.sound htop hs) (h.grows.keepsNodes htop hs) a n hn

omit hp in
/-- A counter that is latched in the end was latched before. -/
theorem Undoable.latched {a : α} {n'' : Node α} (hn : g''.node a = some n'')
    (hc : n''.count = top) : ∃ n, g.node a = some n ∧ n.count = top := by
  obtain ⟨n', hn', _, hle⟩ := hd.node hn
  have htop' := (h.grows.sound htop hs).le_top a n' hn'
  exact h.unlatched a n' hn' (by omega)

/-- In the end a fresh name is owned neither by an old one nor by one that stays
behind. -/
theorem Undoable.fresh_unowned {a b : α} (hfresh : g.node a = none) (hlive : g''.node a ≠ none)
    (hb : g.node b ≠ none ∨ b ∈ m) : a ∉ g''.owns b := by
  intro hown
  have hlive' : g'.node a ≠ none := by
    obtain ⟨n'', hn''⟩ := Option.ne_none_iff_exists'.1 hlive
    obtain ⟨n', hn', _⟩ := hd.node hn''
    simp [hn']
  rcases hb with hb | hb
  · obtain ⟨n, hn⟩ := Option.ne_none_iff_exists'.1 hb
    obtain ⟨n'', hn'', howns, _⟩ := h.old htop hs hp hd hn
    rw [Graph.owns_of_node hn'', howns, ← Graph.owns_of_node hn] at hown
    have hpos := Graph.refs_pos_of_owns w hown
    rw [hs.fresh htop h.grows hlive' hfresh] at hpos
    exact Nat.lt_irrefl 0 hpos
  · obtain ⟨n', hn', hzero⟩ := h.bare b hb
    cases hn'' : g''.node b with
    | none => simp [Graph.owns_of_none hn''] at hown
    | some n'' =>
      obtain ⟨n₁, hn₁, howns, _⟩ := hd.node hn''
      obtain rfl : n₁ = n' := Option.some.inj (hn₁.symm.trans hn')
      rw [Graph.owns_of_node hn'', howns, hzero] at hown
      simp at hown

/-- Every fresh node is gone, those left behind apart. -/
theorem Undoable.gone {a : α} (hfresh : g.node a = none) (ha : a ∉ m) : g''.node a = none := by
  classical
  obtain ⟨rank, hrank⟩ := h.grows.acyclicOn_built htop hs
  by_contra hlive
  -- A remaining node of greatest rank has an owner, and no candidate is left.
  obtain ⟨z, hz, hmax⟩ := (g''.support.filter fun a => g.node a = none ∧ a ∉ m).exists_max_image
    rank ⟨a, Finset.mem_filter.2 ⟨(g''.mem_support a).2 hlive, hfresh, ha⟩⟩
  rw [Finset.mem_filter] at hz
  obtain ⟨hzlive, hzfresh, hzm⟩ := hz
  rw [g''.mem_support] at hzlive
  obtain ⟨n, hn⟩ := Option.ne_none_iff_exists'.1 hzlive
  obtain ⟨n', hn', _⟩ := hd.node hn
  have hzlive' : g'.node z ≠ none := by simp [hn']
  have hs'' := h.sound htop hs hd
  have hrefs : 0 < g''.refs (m + w) z := by
    rcases hs''.counted z n hn with hc | hc
    · obtain ⟨n₀, hn₀, _⟩ := h.latched htop hs hd hn hc
      simp [hzfresh] at hn₀
    · rw [← hc]
      exact hd.positive (h.grows.positive hp) z n hn
  have hw : w.count z = 0 := by
    have hzero := hs.fresh htop h.grows hzlive' hzfresh
    rw [Graph.refs] at hzero
    omega
  have hin : 0 < g''.inRefs z := by
    rw [Graph.refs, Multiset.count_add, hw, Multiset.count_eq_zero.2 hzm] at hrefs
    simpa using hrefs
  obtain ⟨b, hb, hbz⟩ := Finset.exists_ne_zero_of_sum_ne_zero (Nat.ne_of_gt hin)
  have hown : z ∈ g''.owns b := Multiset.count_ne_zero.1 hbz
  have hbnew : g.node b = none ∧ b ∉ m := by
    by_contra hnot
    refine h.fresh_unowned htop hs hp hd hzfresh hzlive ?_ hown
    tauto
  have hlt : rank z < rank b := by
    refine hrank b z ?_ hzfresh hzlive'
    obtain ⟨nb, hnb⟩ := Option.ne_none_iff_exists'.1 ((g''.mem_support b).1 hb)
    obtain ⟨nb', hnb', howns, _⟩ := hd.node hnb
    rw [Graph.owns_of_node hnb, howns] at hown
    rwa [Graph.owns_of_node hnb']
  exact absurd (hmax b (Finset.mem_filter.2 ⟨hb, hbnew⟩)) (by omega)

/-- Every name owns in the end what it owned before. -/
theorem Undoable.owns (a : α) : g''.owns a = g.owns a := by
  cases hn : g.node a with
  | some n =>
    obtain ⟨n'', hn'', howns, _⟩ := h.old htop hs hp hd hn
    rw [Graph.owns_of_node hn'', Graph.owns_of_node hn, howns]
  | none =>
    rw [Graph.owns_of_none hn]
    by_cases ha : a ∈ m
    · obtain ⟨n', hn', hzero⟩ := h.bare a ha
      cases hn'' : g''.node a with
      | none => exact Graph.owns_of_none hn''
      | some n'' =>
        obtain ⟨n₁, hn₁, howns, _⟩ := hd.node hn''
        obtain rfl : n₁ = n' := Option.some.inj (hn₁.symm.trans hn')
        rw [Graph.owns_of_node hn'', howns, hzero]
    · exact Graph.owns_of_none (h.gone htop hs hp hd hn ha)

theorem Undoable.refs (a : α) : g''.refs (m + w) a = m.count a + g.refs w a := by
  rw [Graph.refs_add, Graph.refs, Graph.refs, Graph.inRefs_congr (h.owns htop hs hp hd)]

/-- A name left behind is live in the end, with counter one. -/
theorem Undoable.left_behind {a : α} (ha : a ∈ m) : g''.node a = some ⟨1, 0⟩ := by
  have hs'' := h.sound htop hs hd
  obtain ⟨n', hn', hzero⟩ := h.bare a ha
  have hrefs : g''.refs (m + w) a = 1 := by
    rw [h.refs htop hs hp hd, Multiset.count_eq_one_of_mem h.nodup ha,
      hs.fresh htop h.grows (by simp [hn']) (h.fresh a ha)]
  have hlive : g''.node a ≠ none := by
    rcases hs''.closed a (by omega) with hlive | hout
    · exact hlive
    · rw [(h.grows.sound htop hs).outer_none a hout] at hn'
      cases hn'
  obtain ⟨n, hn⟩ := Option.ne_none_iff_exists'.1 hlive
  have hcount : n.count = 1 := by
    rcases hs''.counted a n hn with hc | hc
    · obtain ⟨n₀, hn₀, _⟩ := h.latched htop hs hd hn hc
      simp [h.fresh a ha] at hn₀
    · omega
  have howns : n.owns = 0 := by
    rw [← Graph.owns_of_node hn, h.owns htop hs hp hd, Graph.owns_of_none (h.fresh a ha)]
  rw [hn, ← hcount, ← howns]

/-- The cascade undoes the growth: the names that were not left behind have the
nodes that they had. -/
theorem Undoable.node_eq {a : α} (ha : a ∉ m) : g''.node a = g.node a := by
  cases hn : g.node a with
  | none => exact h.gone htop hs hp hd hn ha
  | some n =>
    obtain ⟨n'', hn'', howns, hlatched⟩ := h.old htop hs hp hd hn
    have hs'' := h.sound htop hs hd
    have hcount : n''.count = n.count := by
      by_cases hc : n''.count = top
      · obtain ⟨n₀, hn₀, hc₀⟩ := h.latched htop hs hd hn'' hc
        obtain rfl : n₀ = n := Option.some.inj (hn₀.symm.trans hn)
        rw [hc, hc₀]
      · have hc' := (hs''.counted a n'' hn'').resolve_left hc
        have hc₀ := (hs.counted a n hn).resolve_left fun h => hc (hlatched h)
        rw [hc', hc₀, h.refs htop hs hp hd, Multiset.count_eq_zero.2 ha, zero_add]
    rw [hn'']
    cases n''
    cases n
    simp only at hcount howns
    rw [hcount, howns]

/-- The external references given up are those that were taken. -/
theorem Undoable.left_eq {x : α} (hx : outer x) : f.count x = e.count x := by
  have hout := h.grows.refs_outer htop hs hx
  have hnone := (h.grows.sound htop hs).outer_none x hx
  have hleft := hd.refs_outer (m + w) hnone
  have hm : m.count x = 0 := by
    refine Multiset.count_eq_zero.2 fun hxm => ?_
    obtain ⟨n', hn', _⟩ := h.bare x hxm
    rw [hnone] at hn'
    cases hn'
  rw [h.refs htop hs hp hd, hm] at hleft
  omega

end

end Ownership
