import BytecodeOpt.Proofs.Graph.Tarjan
import Mathlib.Data.Finset.Max

/-!
# What the components are

Each kept node lies in a component, and a component holds the nodes that reach one of its nodes and
are reached from it.  In a graph with a node left, some component leads to no other: it is that of a
node that reaches the fewest nodes.
-/

namespace BytecodeOpt.Digraph

variable {g : Digraph} {keep : Nat → Bool} {a b : Nat}

@[simp] theorem size_restrict : (g.restrict keep).size = g.size := by
  simp [restrict, size]

theorem mem_successors_restrict :
    b ∈ (g.restrict keep).successors a ↔ keep a = true ∧ keep b = true ∧ b ∈ g.successors a := by
  simp only [successors, restrict, Array.getD_eq_getD_getElem?, Array.getElem?_mapIdx]
  cases g.adjacency[a]? with
  | none => simp
  | some next => grind

theorem Path.keep_of_restrict {allowed : Nat → Prop} (h : Path (g.restrict keep) allowed a b)
    (ha : keep a = true) : keep b = true := by
  cases h with
  | refl => exact ha
  | snoc _ hmem => exact (mem_successors_restrict.1 hmem).2.1

/-! ## Components -/

def Joined (g : Digraph) (keep : Nat → Bool) (a b : Nat) : Prop :=
  (g.restrict keep).Reaches a b ∧ (g.restrict keep).Reaches b a

theorem joined_self {a : Nat} (hlt : a < g.size) : g.Joined keep a a :=
  ⟨.refl (size_restrict.symm ▸ hlt) trivial, .refl (size_restrict.symm ▸ hlt) trivial⟩

/-- The search ends outside every node, with each kept node entered. -/
theorem inv_components (g : Digraph) (keep : Nat → Bool) : ∃ s : Tarjan,
    s.found = g.components keep ∧ Tarjan.Inv (g.restrict keep) (keep · = true) s [] ∧
      ∀ x < g.size, keep x = true → (s.indexOf? x).isSome = true := by
  have hsucc : ∀ x, ∀ w ∈ (g.restrict keep).successors x, keep w = true := fun x w hw =>
    (mem_successors_restrict.1 hw).2.1
  obtain ⟨hinv, hall⟩ := (Tarjan.inv_start (g.restrict keep) (keep · = true)).foldl hsucc
    ((List.range g.size).filter keep) (fun r hr => (List.mem_filter.1 hr).2)
  exact ⟨_, rfl, hinv,
    fun x hx hkeep => hall x (.inl (List.mem_filter.2 ⟨List.mem_range.2 hx, hkeep⟩))⟩

theorem exists_of_mem_components {members : List Nat} (h : members ∈ g.components keep) :
    ∃ a, ∀ b, b ∈ members ↔ b < g.size ∧ keep b = true ∧ g.Joined keep a b := by
  obtain ⟨s, hfound, hinv, -⟩ := inv_components g keep
  obtain ⟨a, ha, hclass⟩ := hinv.classes members (hfound ▸ h)
  refine ⟨a, fun b => (hclass b).trans ⟨fun hb => ?_, fun hb => hb.2.2⟩⟩
  exact ⟨size_restrict ▸ hb.1.lt_size, hb.1.keep_of_restrict ha, hb⟩

theorem exists_component {a : Nat} (hlt : a < g.size) (ha : keep a = true) :
    ∃ members ∈ g.components keep,
      ∀ b, b ∈ members ↔ b < g.size ∧ keep b = true ∧ g.Joined keep a b := by
  obtain ⟨s, hfound, hinv, hall⟩ := inv_components g keep
  rcases (hinv.entered a (size_restrict.symm ▸ hlt)).1 (hall a hlt ha) with hstack |
    ⟨members, hmembers, hin⟩
  · obtain ⟨u, hu, -⟩ := hinv.returns a hstack
    simp at hu
  obtain ⟨c, hc⟩ := exists_of_mem_components (hfound ▸ hmembers)
  obtain ⟨-, -, hca, hac⟩ := (hc a).1 hin
  refine ⟨members, hfound ▸ hmembers, fun b => ?_⟩
  rw [hc b]
  constructor
  · rintro ⟨hb, hkeep, hcb, hbc⟩
    exact ⟨hb, hkeep, hac.trans hcb, hbc.trans hca⟩
  · rintro ⟨hb, hkeep, hab, hba⟩
    exact ⟨hb, hkeep, hca.trans hab, hba.trans hac⟩

/-! ## A component that leads nowhere else -/

noncomputable def reachSet (g : Digraph) (keep : Nat → Bool) (a : Nat) : Finset Nat :=
  open Classical in (Finset.range g.size).filter ((g.restrict keep).Reaches a)

theorem mem_reachSet : b ∈ g.reachSet keep a ↔ (g.restrict keep).Reaches a b := by
  simp only [reachSet, Finset.mem_filter, Finset.mem_range, and_iff_right_iff_imp]
  exact fun h => size_restrict ▸ h.lt_size

theorem reachSet_subset (h : (g.restrict keep).Reaches a b) :
    g.reachSet keep b ⊆ g.reachSet keep a :=
  fun _ hc => mem_reachSet.2 (h.trans (mem_reachSet.1 hc))

theorem exists_joined_of_reaches (hkept : ∃ a, a < g.size ∧ keep a = true) :
    ∃ a, a < g.size ∧ keep a = true ∧
      ∀ b, (g.restrict keep).Reaches a b → g.Joined keep a b := by
  obtain ⟨a₀, ha₀⟩ := hkept
  obtain ⟨a, hmem, hmin⟩ := Finset.exists_min_image
    ((Finset.range g.size).filter (keep · = true)) (fun a => (g.reachSet keep a).card)
    ⟨a₀, by simpa using ha₀⟩
  obtain ⟨hlt, ha⟩ : a < g.size ∧ keep a = true := by simpa using hmem
  refine ⟨a, hlt, ha, fun b hab => ⟨hab, ?_⟩⟩
  have hb : b ∈ (Finset.range g.size).filter (keep · = true) :=
    Finset.mem_filter.2 ⟨Finset.mem_range.2 (size_restrict ▸ hab.lt_size), hab.keep_of_restrict ha⟩
  -- what `b` reaches is no more than what `a` reaches, and not fewer
  have hsame := Finset.eq_of_subset_of_card_le (reachSet_subset hab) (hmin b hb)
  exact mem_reachSet.1 (hsame ▸ mem_reachSet.2 (joined_self hlt).1)

/-- Where a node is kept, there is a component that its edges to kept nodes do not leave. -/
theorem exists_bottom (hkept : ∃ a, a < g.size ∧ keep a = true) :
    ∃ members ∈ g.components keep, members ≠ [] ∧
      ∀ m ∈ members, ∀ b ∈ g.successors m, b < g.size → keep b = true → b ∈ members := by
  obtain ⟨a, hlt, ha, hall⟩ := exists_joined_of_reaches hkept
  obtain ⟨members, hmembers, hspec⟩ := exists_component hlt ha
  refine ⟨members, hmembers, List.ne_nil_of_mem ((hspec a).2 ⟨hlt, ha, joined_self hlt⟩), ?_⟩
  intro m hm b hb hlt' hkeep
  obtain ⟨-, hmkeep, ham, -⟩ := (hspec m).1 hm
  have hab : (g.restrict keep).Reaches a b :=
    ham.snoc (mem_successors_restrict.2 ⟨hmkeep, hkeep, hb⟩) (size_restrict.symm ▸ hlt') trivial
  exact (hspec b).2 ⟨hlt', hkeep, hall b hab⟩

end BytecodeOpt.Digraph
