import BytecodeOpt.Proofs.Graph.DominatorTree

/-!
# What dominance means

A node that can be reached is dominated by another exactly if no path from the entry leads around
the other.
-/

namespace BytecodeOpt

namespace Digraph

variable {g : Digraph} {start x : Nat}

/-- A path passes only nodes that can be reached. -/
theorem Path.reached (h : g.Reaches start x) : Path g (g.Reaches start) start x := by
  induction h with
  | refl hlt _ => exact .refl hlt (.refl hlt trivial)
  | snoc hpath hmem hlt _ ih => exact ih.snoc hmem hlt (hpath.snoc hmem hlt trivial)

end Digraph

namespace Dominators

open Digraph

variable {g : Digraph} {entry a b c : Nat}

theorem dominates_self (d : Dominators) (b : Nat) : d.dominates b b = true := by
  simp [dominates, isAbove]

theorem immediate?_eq {d : Dominators} {parents : Array (Option Nat)} (h : Rooted g entry parents)
    (hd : d.parents = parents.setIfInBounds entry none) :
    d.immediate? b = if b = entry then none else parents.getD b none := by
  rw [immediate?, hd, Table.getD_setIfInBounds]
  have := h.size ▸ h.inside
  grind

/-- Climbing visits what lies above a node, and ends at the entry. -/
theorem isAbove_iff {d : Dominators} {parents : Array (Option Nat)} (h : Rooted g entry parents)
    (hd : d.parents = parents.setIfInBounds entry none) (hb : Has parents b) {n : Nat}
    (hn : rank g entry b < n) :
    d.isAbove a n b = true ↔ Up parents b a := by
  induction n generalizing b with
  | zero => omega
  | succ n ih =>
    rw [isAbove, immediate?_eq h hd, Bool.or_eq_true, beq_iff_eq]
    by_cases hroot : b = entry
    · subst hroot
      simpa using ⟨fun heq => heq ▸ .refl, fun hup => (h.eq_of_up_root hup).symm⟩
    · obtain ⟨p, hp⟩ := hb
      obtain ⟨hhas, hlt⟩ := h.earlier hp hroot
      simp only [if_neg hroot, hp, ih hhas (by omega)]
      refine ⟨fun hup => hup.elim (fun heq => heq ▸ .refl) (.head hp), fun hup => ?_⟩
      refine (up_cases hup).imp Eq.symm fun ⟨q, hq, hqa⟩ => ?_
      exact Option.some.inj (hq.symm.trans hp) ▸ hqa

theorem exists_parents (hentry : entry < g.size) : ∃ parents, Rooted g entry parents ∧
    (ofGraph g entry).parents = parents.setIfInBounds entry none ∧
    (∀ {b}, Has parents b ↔ g.Reaches entry b) ∧
    ∀ {a b}, g.Reaches entry b → (Up parents b a ↔ ¬ Path g (· ≠ a) entry b) := by
  obtain ⟨parents, hsound, hstable, hsettled⟩ := exists_settled hentry
  refine ⟨parents, hsound.toRooted, ?_, ⟨hsound.reached, fun hb => hsound.filled hb (rank_lt hb)⟩,
    hsound.up_iff hstable⟩
  rw [ofGraph, hsettled _ _ (by omega) (Nat.le_refl _)]

theorem isReachable_ofGraph (hentry : entry < g.size) :
    (ofGraph g entry).isReachable b = true ↔ g.Reaches entry b := by
  obtain ⟨parents, hrooted, hparents, hhas, -⟩ := exists_parents hentry
  rw [isReachable, immediate?_eq hrooted hparents, Bool.or_eq_true, beq_iff_eq, ← hhas, Has,
    ← Option.isSome_iff_exists]
  by_cases hb : b = entry
  · simp [hb, ofGraph, hrooted.root]
  · simp [hb, ofGraph]

/-- A reachable node is dominated by what every path to it passes. -/
theorem dominates_iff (hb : g.Reaches entry b) :
    (ofGraph g entry).dominates a b = true ↔ ¬ Path g (· ≠ a) entry b := by
  obtain ⟨parents, hrooted, hparents, hhas, hup⟩ := exists_parents hb.source_lt_size
  rw [← hup hb, dominates, isAbove_iff hrooted hparents (hhas.2 hb)]
  rw [hparents, Array.size_setIfInBounds, hrooted.size]
  exact Nat.lt_succ_of_lt (rank_lt_size hb)

theorem dominates_iff_of_not_reached (hentry : entry < g.size)
    (hb : ¬ g.Reaches entry b) (n : Nat) :
    (ofGraph g entry).isAbove a (n + 1) b = true ↔ a = b := by
  obtain ⟨parents, hrooted, hparents, hhas, -⟩ := exists_parents hentry
  have hnone : parents.getD b none = none := Option.eq_none_iff_forall_ne_some.2 fun p hp =>
    hb (hhas.1 ⟨p, hp⟩)
  rw [isAbove, immediate?_eq hrooted hparents, hnone, ite_self]
  simpa using eq_comm

theorem reaches_of_dominates (hb : g.Reaches entry b) (h : (ofGraph g entry).dominates a b = true) :
    g.Reaches entry a := by
  rw [dominates_iff hb] at h
  by_contra ha
  refine h ((Digraph.Path.reached hb).mono fun x hx => ?_)
  rintro rfl
  exact ha hx

theorem dominates_pred (hc : g.Reaches entry c) (hedge : b ∈ g.successors c) (hlt : b < g.size)
    (h : (ofGraph g entry).dominates a b = true) (hne : a ≠ b) :
    (ofGraph g entry).dominates a c = true := by
  rw [dominates_iff (hc.snoc hedge hlt trivial)] at h
  rw [dominates_iff hc]
  exact fun hpath => h (hpath.snoc hedge hlt (Ne.symm hne))

theorem not_dominates_entry (hentry : entry < g.size) (hne : a ≠ entry) :
    (ofGraph g entry).dominates a entry = false := by
  rw [← Bool.not_eq_true, dominates_iff (.refl hentry trivial), not_not]
  exact .refl hentry (Ne.symm hne)

theorem path_or_avoids (h : Path g (· ≠ a) entry c) :
    Path g (· ≠ a) entry b ∨ Path g (· ≠ b) entry c := by
  induction h with
  | refl hlt hne =>
    by_cases hx : entry = b
    · exact .inl (hx ▸ .refl hlt hne)
    · exact .inr (.refl hlt hx)
  | @snoc x y hpath hmem hlt hne ih =>
    rcases ih with hfound | haround
    · exact .inl hfound
    · by_cases hy : y = b
      · exact .inl (hy ▸ hpath.snoc hmem hlt hne)
      · exact .inr (haround.snoc hmem hlt hy)

theorem dominates_trans (hb : g.Reaches entry b) (hc : g.Reaches entry c)
    (hab : (ofGraph g entry).dominates a b = true)
    (hbc : (ofGraph g entry).dominates b c = true) : (ofGraph g entry).dominates a c = true := by
  rw [dominates_iff hb] at hab
  rw [dominates_iff hc] at hbc ⊢
  exact fun hpath => (path_or_avoids hpath).elim hab hbc

theorem dominates_antisymm (ha : g.Reaches entry a) (hb : g.Reaches entry b)
    (hab : (ofGraph g entry).dominates a b = true) (hba : (ofGraph g entry).dominates b a = true) :
    a = b := by
  rw [dominates_iff hb] at hab
  rw [dominates_iff ha] at hba
  by_contra hne
  -- with `path_or_avoids` no path would ever come to `a`
  have havoids : ∀ {x}, g.Reaches entry x → Path g (· ≠ a) entry x := by
    intro x hpath
    induction hpath with
    | refl hlt _ => exact .refl hlt fun heq => hba (heq ▸ .refl hlt (heq ▸ hne))
    | snoc _ hmem hlt _ ih =>
      refine ih.snoc hmem hlt ?_
      rintro rfl
      exact (path_or_avoids ih).elim hab fun hpath => hba (hpath.snoc hmem hlt hne)
  exact (havoids ha).target_allowed rfl

/-- The tree settles, and climbing in it ends.  What can be reached and what dominates is told
exactly; an unreachable node is dominated by itself only. -/
theorem dominance_exact (g : Digraph) (entry a b : Nat) (hentry : entry < g.size) :
    (∀ sweeps steps, g.size * g.size < sweeps → 2 * g.size ≤ steps →
      settled g entry sweeps steps = settled g entry (g.size * g.size + 1) (2 * g.size)) ∧
    (∀ n, g.size < n → (ofGraph g entry).isAbove a n b = (ofGraph g entry).dominates a b) ∧
    ((ofGraph g entry).isReachable b = true ↔ g.Reaches entry b) ∧
    (g.Reaches entry b → ((ofGraph g entry).dominates a b = true ↔ ¬ Path g (· ≠ a) entry b)) ∧
    (¬ g.Reaches entry b → ((ofGraph g entry).dominates a b = true ↔ a = b)) := by
  refine ⟨fun sweeps steps hsweeps hsteps => ?_, fun n hn => ?_, isReachable_ofGraph hentry,
    dominates_iff,
    fun hb => dominates_iff_of_not_reached hentry hb _⟩
  · obtain ⟨parents, -, -, hsettled⟩ := exists_settled hentry
    rw [hsettled _ _ hsweeps hsteps, hsettled _ _ (Nat.lt_succ_self _) (Nat.le_refl _)]
  · rw [Bool.eq_iff_iff]
    by_cases hb : g.Reaches entry b
    · obtain ⟨parents, hrooted, hparents, hhas, hup⟩ := exists_parents hentry
      rw [dominates_iff hb, ← hup hb, isAbove_iff hrooted hparents (hhas.2 hb)
        ((rank_lt_size hb).trans hn)]
    · obtain ⟨m, rfl⟩ := Nat.exists_eq_succ_of_ne_zero (Nat.ne_zero_of_lt hn)
      rw [dominates_iff_of_not_reached hentry hb, dominates, dominates_iff_of_not_reached hentry hb]

/-- Two nodes that lead to each other are both entered from outside. -/
theorem dominance_exact_irreducible :
    (ofGraph ⟨#[[1, 2], [2], [1, 3], [0]]⟩ 0).dominates 2 3 = true ∧
      ¬ Path ⟨#[[1, 2], [2], [1, 3], [0]]⟩ (· ≠ 2) 0 3 := by
  obtain ⟨-, -, hreach, hdom, -⟩ := dominance_exact ⟨#[[1, 2], [2], [1, 3], [0]]⟩ 0 2 3 (by decide)
  have htold : (ofGraph ⟨#[[1, 2], [2], [1, 3], [0]]⟩ 0).dominates 2 3 = true := by decide +kernel
  exact ⟨htold, (hdom (hreach.1 (by decide +kernel))).1 htold⟩

end Dominators

end BytecodeOpt
