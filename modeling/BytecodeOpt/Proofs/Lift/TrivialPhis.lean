import BytecodeOpt.Proofs.Ssa.Rewriting
import BytecodeOpt.Ssa.Lift

/-!
# Dropping trivial phis

A phi that is dropped is replaced by the one value it can pick.  Over every edge its operand then
has the same name as the phi itself, so whatever was in scope still is, under its new name.
-/

namespace BytecodeOpt.Ssa

def Phi.IsTrivial (phi : Phi) : Prop := ∃ v, ∀ o ∈ phi.operands, o = phi.dest ∨ o = v

namespace Lift

open Fallible Renaming

variable {r r' : Renaming} {phis : List Phi} {phi : Phi} {v : Operand}

/-! ## Which phis are replaced -/

structure Trivial (phis : List Phi) (r : Renaming) : Prop where
  layered : Layered r.entries
  keys : ∀ v, r.isRenamed v = true → ∃ phi ∈ phis, phi.dest = v
  same : ∀ phi ∈ phis, r.isRenamed phi.dest = true → ∀ o ∈ phi.operands,
    r.resolve o = r.resolve phi.dest

theorem trivial_empty (phis : List Phi) : Trivial phis {} :=
  ⟨trivial, by simp [isRenamed, get?], by simp [isRenamed, get?]⟩

theorem mem_choices {r : Renaming} :
    v ∈ choices r phi ↔ (∃ o ∈ phi.operands, r.resolve o = v) ∧ v ≠ phi.dest := by
  simp [choices]

section

variable (hnodup : (phis.map Phi.dest).Nodup)
include hnodup

theorem Trivial.drop (h : Trivial phis r) (hphi : phi ∈ phis)
    (hdrop : dropTrivial r phi = .ok r') : Trivial phis r' := by
  unfold dropTrivial at hdrop
  split at hdrop
  · cases hdrop
    exact h
  · rename_i hnot
    have hdest : r.isRenamed phi.dest = false := by simpa using hnot
    split at hdrop
    · cases hdrop
    · rename_i value hchoices
      cases hdrop
      obtain ⟨⟨o, ho, rfl⟩, hne⟩ :=
        mem_choices.1 (by rw [hchoices]; exact List.mem_singleton_self _)
      have hvalue := resolve_not_renamed h.layered o
      have hresolve := resolve_insert h.layered hdest hvalue hne
      refine ⟨layered_insert h.layered hdest hvalue hne, ?_, ?_⟩
      · intro v hv
        rcases (isRenamed_insert hdest).1 hv with rfl | hv
        · exact ⟨phi, hphi, rfl⟩
        · exact h.keys v hv
      · intro other hother hrenamed o' ho'
        rw [hresolve, hresolve]
        rcases (isRenamed_insert hdest).1 hrenamed with heq | hold
        · obtain rfl : other = phi := List.inj_on_of_nodup_map hnodup hother hphi heq
          rw [if_pos (resolve_of_not_renamed hdest)]
          split
          · rfl
          · rename_i hkept
            have hmem : r.resolve o' ∈ choices r other := mem_choices.2 ⟨⟨o', ho', rfl⟩, hkept⟩
            rw [hchoices] at hmem
            exact List.mem_singleton.1 hmem
        · rw [h.same other hother hold o' ho']
    · grind

theorem Trivial.round {part : List Phi} (h : Trivial phis r) (hsub : part ⊆ phis)
    (hfold : part.foldlM dropTrivial r = .ok r') : Trivial phis r' := by
  induction part generalizing r with
  | nil =>
    cases hfold
    exact h
  | cons phi rest ih =>
    rw [List.foldlM_cons, bind_eq_ok] at hfold
    obtain ⟨r₁, hdrop, hfold⟩ := hfold
    obtain ⟨hphi, hrest⟩ := List.cons_subset.1 hsub
    exact ih (h.drop hnodup hphi hdrop) hrest hfold

theorem trivial_of_trivialPhis {rounds : Nat} (h : Trivial phis r)
    (hrun : trivialPhis phis rounds r = .ok r') : Trivial phis r' := by
  induction rounds generalizing r with
  | zero =>
    cases hrun
    exact h
  | succ rounds ih =>
    rw [trivialPhis, bind_eq_ok] at hrun
    obtain ⟨next, hfold, hrun⟩ := hrun
    have hnext := h.round hnodup (List.Subset.refl _) hfold
    split at hrun
    · cases hrun
      exact hnext
    · exact ih hnext hrun

end

/-! ## Nothing is left to drop -/

def Exhausted (phis : List Phi) (r : Renaming) : Prop :=
  ∀ phi ∈ phis, r.isRenamed phi.dest = false → 2 ≤ (choices r phi).length

theorem dropTrivial_cases (h : dropTrivial r phi = .ok r') :
    r'.size = r.size + 1 ∨
      (r' = r ∧ (r.isRenamed phi.dest = false → 2 ≤ (choices r phi).length)) := by
  unfold dropTrivial at h
  split at h
  · grind
  · rename_i hnot
    split at h
    · cases h
    · cases h
      left
      rw [size, entries_insert (by simpa using hnot)]
      rfl
    · rename_i hnil hone
      cases h
      refine .inr ⟨rfl, fun _ => ?_⟩
      rcases hchoices : choices r phi with _ | ⟨v, _ | ⟨u, rest⟩⟩
      · exact absurd hchoices hnil
      · exact absurd hchoices (hone v)
      · simp

theorem exhausted_of_round {part : List Phi} (h : part.foldlM dropTrivial r = .ok r') :
    r.size ≤ r'.size ∧ (r'.size = r.size → r' = r ∧ Exhausted part r) := by
  induction part generalizing r with
  | nil =>
    cases h
    exact ⟨Nat.le_refl _, fun _ => ⟨rfl, by simp [Exhausted]⟩⟩
  | cons phi rest ih =>
    rw [List.foldlM_cons, bind_eq_ok] at h
    obtain ⟨r₁, hdrop, hrest⟩ := h
    obtain ⟨hle, hsame⟩ := ih hrest
    rcases dropTrivial_cases hdrop with hgrown | ⟨rfl, hphi⟩
    · exact ⟨by omega, fun heq => by omega⟩
    · refine ⟨hle, fun heq => ?_⟩
      obtain ⟨rfl, hexhausted⟩ := hsame heq
      exact ⟨rfl, by simpa [Exhausted] using ⟨hphi, hexhausted⟩⟩

theorem nodup_keys {entries : List (Operand × Operand)} (h : Layered entries) :
    (Renaming.keys entries).Nodup := by
  induction entries with
  | nil => simp [Renaming.keys]
  | cons e rest ih =>
    obtain ⟨v, target⟩ := e
    exact List.nodup_cons.2 ⟨h.1, ih h.2.2.2⟩

theorem Trivial.size_le {r : Renaming} (h : Trivial phis r) : r.size ≤ phis.length := by
  have hsub : Renaming.keys r.entries ⊆ phis.map Phi.dest := by
    intro v hv
    obtain ⟨phi, hphi, rfl⟩ := h.keys v (isRenamed_iff.2 hv)
    exact List.mem_map_of_mem hphi
  have hle := (List.subperm_of_subset (nodup_keys h.layered) hsub).length_le
  simpa [Renaming.keys, size] using hle

/-- The rounds suffice: each but the last replaces a phi. -/
theorem exhausted_of_trivialPhis (hnodup : (phis.map Phi.dest).Nodup) {rounds : Nat}
    (h : Trivial phis r)
    (hrounds : phis.length < r.size + rounds) (hrun : trivialPhis phis rounds r = .ok r') :
    Exhausted phis r' := by
  induction rounds generalizing r with
  | zero =>
    have := h.size_le
    omega
  | succ rounds ih =>
    rw [trivialPhis, bind_eq_ok] at hrun
    obtain ⟨next, hfold, hrun⟩ := hrun
    obtain ⟨hle, hsame⟩ := exhausted_of_round hfold
    split at hrun
    · rename_i hsize
      cases hrun
      obtain ⟨rfl, hexhausted⟩ := hsame hsize
      exact hexhausted
    · refine ih (h.round hnodup (List.Subset.refl _) hfold) ?_ hrun
      omega

/-! ## The body without them -/

theorem Trivial.resolve_eq_self_iff {v : Operand} (h : Trivial phis r) :
    r.resolve v = v ↔ r.isRenamed v = false := by
  refine ⟨fun hself => ?_, resolve_of_not_renamed⟩
  rw [← hself]
  exact resolve_not_renamed h.layered v

theorem Trivial.rename_mapBlocks (h : Trivial phis r) (body : Body) :
    ((body.mapBlocks fun b => { b with phis := b.phis.filter fun p => !r.isRenamed p.dest }).rename
      r) =
      body.rewrite r.resolve := by
  have hfilter : ∀ p : Phi, (!r.isRenamed p.dest) = decide (r.resolve p.dest = p.dest) := by
    intro p
    simp [h.resolve_eq_self_iff]
  unfold Body.rename
  split
  · rename_i hempty
    have hresolve : ∀ v, r.resolve v = v := fun v => resolve_of_not_renamed (by
      rw [isRenamed, get?, List.isEmpty_iff.1 hempty]
      rfl)
    simp only [Body.mapBlocks, Body.rewrite, Body.mk.injEq, true_and, and_true]
    congr 1
    funext b
    have hops : b.ops.map (Op.mapUses r.resolve) = b.ops := by
      rw [List.map_congr_left (fun op _ => Op.mapUses_id r.resolve op hresolve), List.map_id']
    have hoperands : ∀ p : Phi, ({ p with operands := p.operands.map r.resolve } : Phi) = p := by
      intro p
      rw [List.map_congr_left (fun v _ => hresolve v), List.map_id']
    simp only [Block.rewrite, hfilter, hops, hoperands, List.map_id']
  · simp only [Body.mapBlocks, Body.rewrite, Array.map_map, hfilter]
    rfl

theorem removeTrivialPhis_eq_ok {body body' : Body}
    (hnodup : ((body.blocks.toList.flatMap Block.phis).map Phi.dest).Nodup)
    (h : removeTrivialPhis body = .ok body') :
    ∃ r, Trivial (body.blocks.toList.flatMap Block.phis) r ∧
      Exhausted (body.blocks.toList.flatMap Block.phis) r ∧
      body' = body.rewrite r.resolve := by
  unfold removeTrivialPhis at h
  obtain ⟨r, hr, h⟩ := bind_eq_ok.1 h
  obtain rfl := pure_eq_ok.1 h
  have htrivial := trivial_of_trivialPhis hnodup (trivial_empty _) hr
  exact ⟨r, htrivial, exhausted_of_trivialPhis hnodup (trivial_empty _) (by simp [size]) hr,
    htrivial.rename_mapBlocks body⟩

section Kept

variable {body : Body} {r : Renaming}

theorem mem_phis : phi ∈ body.blocks.toList.flatMap Block.phis ↔ ∃ c < body.blockCount,
    phi ∈ (body.block c).phis := by
  simp [Body.blocks_toList, Body.mem_blockIds]

theorem Trivial.not_renamed_opDest (htrivial : Trivial (body.blocks.toList.flatMap Block.phis) r)
    (hnodup : body.definedValues.Nodup) {b : BlockId} (hb : b < body.blockCount)
    (hv : v ∈ (body.block b).opDests) :
    r.isRenamed v = false := by
  by_contra hrenamed
  obtain ⟨phi, hphi, hdest⟩ := htrivial.keys v (by simpa using hrenamed)
  obtain ⟨c, hc, hphi⟩ := mem_phis.1 hphi
  exact Body.not_opDest_of_phi hnodup hc hb (List.mem_map.2 ⟨phi, hphi, hdest⟩) hv

theorem Trivial.rewritable (htrivial : Trivial (body.blocks.toList.flatMap Block.phis) r)
    (hwf : body.WellFormed) : body.Rewritable r.resolve where
  regular := hwf.toRegular
  entry v hv := by simp [Block.phiDests, hwf.entry_phis] at hv
  op b hb v hv :=
    htrivial.resolve_eq_self_iff.2 (htrivial.not_renamed_opDest hwf.defined_nodup hb hv)
  phi b hb phi hphi hname := by
    refine htrivial.same phi (mem_phis.2 ⟨b, hb, hphi⟩) ?_
    rwa [ne_eq, htrivial.resolve_eq_self_iff, Bool.not_eq_false] at hname

end Kept

theorem not_trivial_rewrite {body : Body} {r : Renaming}
    (htrivial : Trivial (body.blocks.toList.flatMap Block.phis) r)
    (h : Exhausted (body.blocks.toList.flatMap Block.phis) r) (b : BlockId) :
    ∀ phi ∈ ((body.rewrite r.resolve).block b).phis, ¬ phi.IsTrivial := by
  intro phi hphi
  rw [Body.block_rewrite] at hphi
  obtain ⟨old, hold, rfl⟩ := List.mem_map.1 hphi
  obtain ⟨hmem, hkept⟩ := List.mem_filter.1 hold
  rw [decide_eq_true_eq, htrivial.resolve_eq_self_iff] at hkept
  have hlength := h old (mem_phis.2 ⟨b, Body.lt_blockCount_of_mem_phis hmem, hmem⟩) hkept
  rintro ⟨v, hall⟩
  have hsame : ∀ u ∈ choices r old, u = v := by
    intro u hu
    obtain ⟨⟨o, ho, rfl⟩, hne⟩ := mem_choices.1 hu
    exact (hall _ (List.mem_map_of_mem ho)).resolve_left hne
  have hnodup : (choices r old).Nodup := nodup_eraseDups _
  rcases hchoices : choices r old with _ | ⟨x, _ | ⟨y, rest⟩⟩
  · simp [hchoices] at hlength
  · simp [hchoices] at hlength
  · rw [hchoices] at hsame hnodup
    refine (List.nodup_cons.1 hnodup).1 ?_
    rw [hsame x (by simp), ← hsame y (by simp)]
    exact List.mem_cons_self

theorem nodup_phiDests {body : Body} (h : body.definedValues.Nodup) :
    ((body.blocks.toList.flatMap Block.phis).map Phi.dest).Nodup := by
  rw [List.map_flatMap, Body.blocks_toList, List.flatMap_map]
  refine h.sublist (List.Sublist.flatMap_right _ fun c _ => ?_)
  exact List.sublist_append_left _ _

end Lift

end BytecodeOpt.Ssa
