import BytecodeOpt.Proofs.Lift.Blocks

/-!
# How deep a lookup goes

A lookup climbs over blocks with one predecessor to a block where edges meet.  Each such block has
blocks of its own below it.  The search passes below one of them only once until it comes to a phi
that is there already, and then it climbs to that and ends.
-/

namespace BytecodeOpt.Ssa.Lift

variable {src : Source} {layout : Layout} {s s' : State} {reg : Reg} {b p r r' : BlockId}
  {n n' depth : Nat} {among among' : BlockId → Prop}

/-! ## Where a lookup climbs to -/

/-- From a block over only predecessors to the first that does not have just one. -/
inductive Climbs (layout : Layout) : BlockId → BlockId → Nat → Prop where
  | root {b : BlockId} : (layout.preds b).length ≠ 1 → Climbs layout b b 0
  | up {b p r : BlockId} {n : Nat} : layout.preds b = [p] → Climbs layout p r n →
      Climbs layout b r (n + 1)

theorem Climbs.unique (h : Climbs layout b r n) (h' : Climbs layout b r' n') : r = r' ∧ n = n' := by
  induction h generalizing n' with
  | root hroot =>
    cases h' with
    | root _ => exact ⟨rfl, rfl⟩
    | up hpreds _ => simp [hpreds] at hroot
  | up hpreds _ ih =>
    cases h' with
    | root hroot => simp [hpreds] at hroot
    | up hpreds' h' => grind

theorem exists_climbs (hsound : Layout.Sound src.code src.layout)
    (hb : b < src.layout.blocks.size) :
    ∃ r n, Climbs src.layout b r n := by
  have hreach := hsound.reachable b hb
  clear hb
  induction hreach with
  | refl _ _ => exact ⟨0, 0, .root (by simp [preds_entry hsound])⟩
  | @snoc q c hpath hedge _ _ ih =>
    by_cases hroot : (src.layout.preds c).length = 1
    · obtain ⟨p, hp⟩ := List.length_eq_one_iff.1 hroot
      have hq : q ∈ src.layout.preds c :=
        mem_preds.2 ⟨by rw [← Layout.size_graph]; exact hpath.lt_size, by
          rwa [← Layout.successors_graph]⟩
      obtain rfl : q = p := by rwa [hp, List.mem_singleton] at hq
      obtain ⟨r, n, hclimbs⟩ := ih
      exact ⟨r, n + 1, .up hp hclimbs⟩
    · exact ⟨c, 0, .root hroot⟩

open Classical in
/-- The blocks from which a lookup climbs to one of these. -/
noncomputable def climbers (layout : Layout) (among : BlockId → Prop) : Finset BlockId :=
  (Finset.range layout.blocks.size).filter fun b => ∃ r n, Climbs layout b r n ∧ among r

theorem mem_climbers :
    b ∈ climbers layout among ↔ b < layout.blocks.size ∧ ∃ r n, Climbs layout b r n ∧ among r := by
  simp [climbers]

theorem climbers_mono (layout : Layout) (h : ∀ r, among r → among' r) :
    climbers layout among ⊆ climbers layout among' := by
  intro b hb
  obtain ⟨hlt, r, n, hclimbs, hr⟩ := mem_climbers.1 hb
  exact mem_climbers.2 ⟨hlt, r, n, hclimbs, h r hr⟩

theorem card_climbers_add_le (layout : Layout) (hdisjoint : ∀ r, among r → ¬ among' r) :
    (climbers layout among).card + (climbers layout among').card ≤
    (climbers layout fun r => among r ∨ among' r).card := by
  rw [← Finset.card_union_of_disjoint]
  · exact Finset.card_le_card (Finset.union_subset (climbers_mono layout fun _ => .inl)
      (climbers_mono layout fun _ => .inr))
  · refine Finset.disjoint_left.2 fun b hb hb' => ?_
    obtain ⟨-, r, n, hclimbs, hr⟩ := mem_climbers.1 hb
    obtain ⟨-, r', n', hclimbs', hr'⟩ := mem_climbers.1 hb'
    exact hdisjoint r hr ((hclimbs.unique hclimbs').1 ▸ hr')

theorem card_climbers_le (layout : Layout) (among : BlockId → Prop) :
    (climbers layout among).card ≤ layout.blocks.size := by
  classical
  exact (Finset.card_filter_le _ _).trans (Finset.card_range _).le

/-- The blocks passed on the way up are all below the last. -/
theorem Climbs.lt_card (h : Climbs layout b r n) (hb : b < layout.blocks.size) :
    n < (climbers layout (· = r)).card := by
  classical
  suffices hchain :
      n < ((Finset.range layout.blocks.size).filter fun x => ∃ k ≤ n, Climbs layout x r k).card by
    refine hchain.trans_le (Finset.card_le_card fun x hx => ?_)
    rw [Finset.mem_filter, Finset.mem_range] at hx
    obtain ⟨hlt, k, -, hclimbs⟩ := hx
    exact mem_climbers.2 ⟨hlt, r, k, hclimbs, rfl⟩
  induction h with
  | @root b hroot =>
    refine Finset.card_pos.2 ⟨b, ?_⟩
    rw [Finset.mem_filter, Finset.mem_range]
    exact ⟨hb, 0, Nat.le_refl 0, .root hroot⟩
  | @up b p r n hpreds hclimbs ih =>
    have hp : p < layout.blocks.size := (mem_preds.1 (hpreds ▸ List.mem_singleton_self p)).1
    refine (Nat.succ_le_of_lt (ih hp)).trans_lt (Finset.card_lt_card ?_)
    refine Finset.ssubset_iff_of_subset (fun x hx => ?_) |>.2 ⟨b, ?_, ?_⟩
    · grind
    · rw [Finset.mem_filter, Finset.mem_range]
      exact ⟨hb, n + 1, Nat.le_refl _, .up hpreds hclimbs⟩
    · rw [Finset.mem_filter]
      rintro ⟨-, k, hk, hx⟩
      have := (hx.unique (.up hpreds hclimbs)).2
      omega

/-! ## What is still to be climbed -/

def Uncached (s : State) (reg : Reg) (b : BlockId) :
    Prop := (blockState s b).atEntry.lookup reg = none

theorem Uncached.of_extends (h : Uncached s' reg b) (hext : Extends s s') : Uncached s reg b := by
  rw [Uncached, List.lookup_eq_none_iff] at h ⊢
  exact fun e he => h e (hext.atEntry b he)

/-- A depth from which a lookup comes to an end.  Where it climbs to a block that is not known yet,
it may go on below all others of that kind and then climb once more. -/
def Suffices (src : Source) (s : State) (reg : Reg) (b : BlockId) (depth : Nat) : Prop :=
  ∃ r n, Climbs src.layout b r n ∧ n < depth ∧ (Uncached s reg r → n + 1 + src.layout.blocks.size +
    (climbers src.layout fun r' => r' ≠ r ∧ Uncached s reg r').card ≤ depth)

namespace Suffices

theorem pos (h : Suffices src s reg b depth) : 0 < depth := by
  obtain ⟨r, n, -, hlt, -⟩ := h
  omega

theorem up (h : Suffices src s reg b (depth + 1)) (hpreds : src.layout.preds b = [p]) :
    Suffices src s reg p depth := by
  obtain ⟨r, n, hclimbs, hlt, hcard⟩ := h
  cases hclimbs with
  | root hroot => simp [hpreds] at hroot
  | up hpreds' hclimbs =>
    rw [hpreds, List.cons.injEq] at hpreds'
    refine ⟨r, _, hpreds'.1 ▸ hclimbs, by omega, fun hr => ?_⟩
    have := hcard hr
    omega

/-- A block where edges meet is known from then on, so the search goes on below the others. -/
theorem join (hsound : Layout.Sound src.code src.layout) (h : Suffices src s reg b (depth + 1))
    (hmeet : (src.layout.preds b).length ≠ 1) (hb : Uncached s reg b) (hext : Extends s s')
    (hcached : ¬ Uncached s' reg b) (hp : p < src.layout.blocks.size) :
    Suffices src s' reg p depth := by
  obtain ⟨r, n, hclimbs, -, hcard⟩ := h
  obtain ⟨rfl, rfl⟩ := hclimbs.unique (.root hmeet)
  have hcard := hcard hb
  obtain ⟨r', n', hclimbs'⟩ := exists_climbs hsound hp
  have hheight := hclimbs'.lt_card hp
  refine ⟨r', n', hclimbs', ?_, fun hr' => ?_⟩
  · have := card_climbers_le src.layout (· = r')
    omega
  · have hne : r' ≠ r := by grind
    have hsplit := card_climbers_add_le src.layout fun q (hq : q = r') (hq' : q ≠ r' ∧
      Uncached s' reg q) => hq'.1 hq
    have hsub : (climbers src.layout fun q => q = r' ∨ (q ≠ r' ∧ Uncached s' reg q)).card ≤
        (climbers src.layout fun q => q ≠ r ∧ Uncached s reg q).card := by
      refine Finset.card_le_card (climbers_mono src.layout fun q hq => ?_)
      rcases hq with rfl | ⟨-, hq⟩
      · exact ⟨hne, hr'.of_extends hext⟩
      · exact ⟨fun heq => hcached (heq ▸ hq), hq.of_extends hext⟩
    omega

end Suffices

theorem suffices_depthBound (hsound : Layout.Sound src.code src.layout)
    (hb : b < src.layout.blocks.size) (s : State)
    (reg : Reg) : Suffices src s reg b (depthBound src) := by
  obtain ⟨r, n, hclimbs⟩ := exists_climbs hsound hb
  have hheight := hclimbs.lt_card hb
  have hsplit := card_climbers_add_le src.layout fun q (hq : q = r) (hq' : q ≠ r ∧
    Uncached s reg q) => hq'.1 hq
  have hall := card_climbers_le src.layout fun q => q = r ∨ (q ≠ r ∧ Uncached s reg q)
  refine ⟨r, n, hclimbs, ?_, fun _ => ?_⟩ <;> unfold depthBound <;> omega

end BytecodeOpt.Ssa.Lift
