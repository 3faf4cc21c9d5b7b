import BytecodeOpt.Pass.DeadCode
import BytecodeOpt.Proofs.Ssa.Rewriting

/-!
# Phis that pick one value

A phi all of whose operands are one value, or the phi itself, goes by the name of that value from
then on.
-/

namespace BytecodeOpt

open Execution

namespace Pass.DeadCode

open Ssa Ssa.Body

variable {body : Body} {b c : BlockId} {phi : Phi} {value v : Operand} {k : Nat}

/-! ## Finding one -/

structure Trivial (body : Body) (b : BlockId) (phi : Phi) (value : Operand) : Prop where
  inside : b < body.blockCount
  mem : phi ∈ (body.block b).phis
  choice : ∀ o ∈ phi.operands, o = phi.dest ∨ o = value
  chosen : value ∈ phi.operands
  ne : value ≠ phi.dest

theorem onlyChoice?_eq_some (h : onlyChoice? phi = some value) :
    (∀ o ∈ phi.operands, o = phi.dest ∨ o = value) ∧ value ∈ phi.operands ∧ value ≠ phi.dest := by
  unfold onlyChoice? at h
  split at h
  next only hdups =>
    obtain rfl := Option.some.inj h
    have hmem : ∀ o, o ∈ phi.operands.filter (· ≠ phi.dest) ↔ o = only := fun o => by
      rw [← List.mem_eraseDups, hdups, List.mem_singleton]
    simp only [ne_eq, decide_not, List.mem_filter, Bool.not_eq_true',
      decide_eq_false_iff_not] at hmem
    refine ⟨fun o ho => ?_, (hmem only).2 rfl⟩
    by_cases hself : o = phi.dest
    · exact .inl hself
    · exact .inr ((hmem o).1 ⟨ho, hself⟩)
  next => cases h

theorem trivial_of_findTrivialPhi? (h : findTrivialPhi? body = some (b, phi, value)) :
    Trivial body b phi value := by
  obtain ⟨c, hc, hfound⟩ := List.exists_of_findSome?_eq_some h
  obtain ⟨other, hmem, hchoice⟩ := List.exists_of_findSome?_eq_some hfound
  obtain ⟨only, honly, heq⟩ := Option.map_eq_some_iff.1 hchoice
  simp only [Prod.mk.injEq] at heq
  obtain ⟨rfl, rfl, rfl⟩ := heq
  obtain ⟨hall, hin, hne⟩ := onlyChoice?_eq_some honly
  exact ⟨mem_blockIds.1 hc, hmem, hall, hin, hne⟩

/-! ## Resolving it -/

def instead (phi : Phi) (value v : Operand) : Operand := if v = phi.dest then value else v

def resolved (body : Body) (b : BlockId) (phi : Phi) (value : Operand) : Body :=
  (body.modifyBlock b fun block => { block with phis := block.phis.erase phi }).replaceUses
    phi.dest value

namespace Trivial

variable (h : Trivial body b phi value)
include h

theorem resolved_eq : resolved body b phi value =
    (body.modifyBlock b fun block => { block with phis := block.phis.erase phi }).mapBlocks
      (·.mapUses (instead phi value)) :=
  replaceUses_eq_mapBlocks _ h.ne

theorem block_resolved (c : BlockId) : (resolved body b phi value).block c =
    Block.mapUses { body.block c with phis := if b = c then (body.block c).phis.erase phi
      else (body.block c).phis }
      (instead phi value) := by
  rw [h.resolved_eq, block_mapBlocks _ _ rfl, block_modifyBlock]
  by_cases hb : b = c
  · have hc : c < body.blockCount := hb ▸ h.inside
    simp [hb, hc]
  · simp [hb]

variable (hchecked : body.Checked)
include hchecked

/-- No other phi defines the same. -/
theorem unique {other : Phi} (hother : other ∈ (body.block c).phis) (heq : other.dest = phi.dest) :
    b = c ∧ other = phi := by
  have hsite : body.DefinedAt phi.dest (.phi b) := ⟨h.inside, List.mem_map_of_mem h.mem⟩
  have hc := lt_blockCount_of_mem_phis hother
  have hsite' : body.DefinedAt phi.dest (.phi c) := ⟨hc, heq ▸ List.mem_map_of_mem hother⟩
  cases hchecked.site_unique hsite hsite'
  exact ⟨rfl, List.inj_on_of_nodup_map (hchecked.sound.phis_nodup b (hchecked.block b hc).reachable)
    hother h.mem heq⟩

theorem ne_zero : b ≠ 0 := by
  rintro rfl
  have harity := (hchecked.block 0 h.inside).arity phi h.mem
  rw [hchecked.entry_preds, List.length_nil, List.length_eq_zero_iff] at harity
  have := h.chosen
  simp [harity] at this

theorem rewritable : body.Rewritable (instead phi value) where
  regular := hchecked.regular (Nat.zero_lt_of_lt h.inside)
  entry v hv := if_neg fun heq => by
    obtain ⟨other, hother, rfl⟩ := List.mem_map.1 hv
    exact h.ne_zero hchecked (h.unique hchecked hother heq).1
  op c hc v hv := if_neg fun heq => by
    rw [heq] at hv
    exact not_opDest_of_phi hchecked.defined_nodup h.inside hc (List.mem_map_of_mem h.mem) hv
  phi c hc other hother hname o ho := by
    have hdest : other.dest = phi.dest := by
      by_contra hne
      exact hname (if_neg hne)
    obtain ⟨-, rfl⟩ := h.unique hchecked hother hdest
    unfold instead
    rcases h.choice o ho with rfl | rfl
    · rfl
    · rw [if_neg h.ne, if_pos rfl]

theorem resolved_eq_rewrite : resolved body b phi value = body.rewrite (instead phi value) := by
  have hname : ∀ v, instead phi value v = v ↔ v ≠ phi.dest := fun v => by
    unfold instead
    split
    next heq => exact ⟨fun hv => absurd (hv.trans heq) h.ne, fun hne => absurd heq hne⟩
    next hne => exact ⟨fun _ => hne, fun _ => rfl⟩
  have hphis : ∀ c, (if b = c then (body.block c).phis.erase phi else (body.block c).phis) =
      (body.block c).phis.filter fun other => instead phi value other.dest = other.dest :=
        fun c => by
    simp only [hname]
    by_cases hbc : b = c
    · subst hbc
      have hnodup :=
        List.Nodup.of_map _ (hchecked.sound.phis_nodup b (hchecked.block b h.inside).reachable)
      rw [if_pos rfl, hnodup.erase_eq_filter]
      refine List.filter_congr fun other hother => ?_
      rw [Bool.eq_iff_iff]
      simpa using not_congr ⟨fun heq => heq ▸ rfl, fun heq => (h.unique hchecked hother heq).2⟩
    · rw [if_neg hbc]
      exact (List.filter_eq_self.2 fun other hother => by
        simpa using fun heq => hbc (h.unique hchecked hother heq).1).symm
  have hids : (resolved body b phi value).blockIds =
      (body.rewrite (instead phi value)).blockIds := by
    simp [blockIds, h.resolved_eq, rewrite, mapBlocks, modifyBlock]
  have hblocks : (resolved body b phi value).blocks =
      (body.rewrite (instead phi value)).blocks := by
    rw [← Array.toList_inj, blocks_toList, blocks_toList, hids]
    refine List.map_congr_left fun c _ => ?_
    rw [h.block_resolved, block_rewrite, hphis]
    rfl
  rw [h.resolved_eq] at hblocks ⊢
  exact congrArg (fun blocks => { body with blocks }) hblocks

theorem checked_resolved : (resolved body b phi value).Checked :=
  h.resolved_eq_rewrite hchecked ▸ (h.rewritable hchecked).checked_rewrite hchecked

end Trivial

/-! ## Running without it -/

variable {V W : Type} {host : Host V W} {args : Nat → V} {w : W} {m m' : Memory V}

/-- The operations that stand at places that are passed over. -/
def At (body : Body) (P : Op → Prop) (l : BlockId × Nat) :
    Prop := ∃ op, (body.block l.1).ops[l.2]? = some op ∧ P op

theorem rewrite_simulates {rename : Operand → Operand} {inScope : BlockId → Operand → Prop}
    (h : body.Rewritable rename)
    (hs : body.Scoped body.atEnd inScope) {P : Op → Prop} (hP : ∀ f op, P (op.mapUses f) ↔ P op) :
    Simulates (body.routine.Sparing (At body P) host args)
      ((body.rewrite rename).routine.Sparing (At (body.rewrite rename) P) host args)
      (Parallel (W := W) body rename inScope) := by
  rintro n a a' (⟨rfl, rfl⟩ | ⟨c, k, w, m, m', hsame, rfl, rfl⟩) seen x hstep
  · cases hstep
  obtain ⟨op, hop⟩ : ∃ op, (body.block c).ops[k]? = some op := by
    have heffect : ∃ e, body.routine.effect? (c, k) = some e := by
      cases hstep with
      | seen _ hstep => exact hstep.exists_effect
      | spared _ he _ => exact ⟨_, he⟩
    obtain ⟨e, he⟩ := heffect
    obtain ⟨op, hop, -⟩ := Option.map_eq_some_iff.1 he
    exact ⟨op, hop⟩
  have hop' : ((body.rewrite rename).block c).ops[k]? = some (op.mapUses rename) := by
    rw [getElem?_rewrite, hop, Option.map_some]
  have hspared : At body P (c, k) ↔ At (body.rewrite rename) P (c, k) := by
    simp [At, hop, hop', hP]
  exact .inr (.inr (matched_sparing (effect?_routine hop) (effect?_routine hop') hspared
    (op.corresponds_mapUses rename)
    (h.same_operands hs hsame hop) hsame.caught (h.rejoins hs hsame hop w) seen x hstep))

/-! ## All of them -/

theorem resolvePhis_succ (fuel : Nat) (body : Body) : (resolvePhis (fuel + 1) body).1 =
    (findTrivialPhi? body).elim body fun e =>
    (resolvePhis fuel (resolved body e.1 e.2.1 e.2.2)).1 := by
  rw [resolvePhis]
  split
  next hnone => simp [hnone]
  next hsome => simp [hsome, resolved]

theorem checked_resolvePhis (hchecked : body.Checked) (fuel : Nat) :
    (resolvePhis fuel body).1.Checked := by
  induction fuel generalizing body with
  | zero => exact hchecked
  | succ fuel ih =>
    rw [resolvePhis_succ]
    cases hfind : findTrivialPhi? body with
    | none => exact hchecked
    | some e => exact ih ((trivial_of_findTrivialPhi? hfind).checked_resolved hchecked)

theorem resolvePhis_follows (hchecked : body.Checked) {P : Op → Prop}
    (hP : ∀ f op, P (op.mapUses f) ↔ P op) (fuel : Nat)
    (host : Host V W) (args : Nat → V) (w : W) (m : Memory V) :
    Follows (body.routine.Sparing (At body P) host args)
      ((resolvePhis fuel body).1.routine.Sparing (At (resolvePhis fuel body).1 P) host args)
      (some ⟨(0, 0), w, m⟩) (some ⟨(0, 0), w, m⟩) := by
  induction fuel generalizing body with
  | zero => exact .refl ..
  | succ fuel ih =>
    rw [resolvePhis_succ]
    cases hfind : findTrivialPhi? body with
    | none => exact .refl ..
    | some e =>
      have htrivial := trivial_of_findTrivialPhi? hfind
      have hrewritable := htrivial.rewritable hchecked
      obtain ⟨inScope, hs⟩ := hrewritable.regular.in_scope
      refine .trans ?_ (ih (htrivial.checked_resolved hchecked))
      rw [htrivial.resolved_eq_rewrite hchecked]
      exact (rewrite_simulates hrewritable hs hP).follows (hrewritable.parallel_start hs w m)

theorem totalOf_blocks (measure : Block → Nat) (body : Body) :
    totalOf measure body.blocks.toList = totalOf (fun b => measure (body.block b))
      body.blockIds := by
  rw [blocks_toList, totalOf_eq_foldr, totalOf_eq_foldr, List.map_map]
  rfl

theorem Trivial.phiCount_lt (h : Trivial body b phi value) :
    phiCount (resolved body b phi value) < phiCount body := by
  have hids : (resolved body b phi value).blockIds = body.blockIds := by
    rw [h.resolved_eq]
    simp [blockIds, mapBlocks, modifyBlock]
  rw [phiCount, phiCount, totalOf_blocks, totalOf_blocks, hids]
  refine totalOf_lt_totalOf (fun c _ => ?_) (mem_blockIds.2 h.inside) ?_
  · rw [h.block_resolved]
    simp only [Block.mapUses, List.length_map]
    split
    · exact List.erase_sublist.length_le
    · exact Nat.le_refl _
  · rw [h.block_resolved]
    have hpos := List.length_pos_of_mem h.mem
    simp only [Block.mapUses, List.length_map, if_true, List.length_erase_of_mem h.mem]
    omega

/-- There are as many rounds as phis, so none that picks one value is left. -/
theorem findTrivialPhi?_resolvePhis (fuel : Nat) (hfuel : phiCount body ≤ fuel) :
    findTrivialPhi? (resolvePhis fuel body).1 = none := by
  induction fuel generalizing body with
  | zero =>
    cases hfind : findTrivialPhi? body with
    | none => exact hfind
    | some e => exact absurd (trivial_of_findTrivialPhi? hfind).phiCount_lt (by omega)
  | succ fuel ih =>
    rw [resolvePhis_succ]
    cases hfind : findTrivialPhi? body with
    | none => exact hfind
    | some e =>
      have hlt := (trivial_of_findTrivialPhi? hfind).phiCount_lt
      exact ih (Nat.le_of_lt_succ (Nat.lt_of_lt_of_le hlt hfuel))

end Pass.DeadCode

end BytecodeOpt
