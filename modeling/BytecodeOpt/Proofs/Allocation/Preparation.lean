import BytecodeOpt.Proofs.Allocation.PreparedForm
import BytecodeOpt.Proofs.Ssa.Dominance
import BytecodeOpt.Proofs.Ssa.Execution

/-!
# Prepared bodies

Handlers where several exceptional edges meet get a pad on each, and critical edges are split.  A
body that passes the check does so when it is prepared, and it runs as it did before.
-/

namespace BytecodeOpt.Allocation

open Ssa Execution

/-! ## Running with detours -/

namespace Detoured

variable {d : Detours} {body body' : Body} {b s t p : BlockId} {i k k' : Nat} {v : Operand}
  {V W : Type} {host : Host V W} {args : Nat → V} {w : W} {m m' : Memory V}

/-- The values of the body without detours are the same in both. -/
structure Agrees (body : Body) (m m' : Memory V) : Prop where
  store : ∀ v < body.valueCount, m.store v = m'.store v
  caught : m.caught = m'.caught

def Alongside (d : Detours) (body : Body) (a a' : Option (Config (BlockId × Nat) V W)) : Prop :=
  (a = none ∧ a' = none) ∨ ∃ b k w m m', b < body.blockCount ∧ Agrees body m m' ∧
    a = some ⟨(b, d.dropped body b + k), w, m⟩ ∧ a' = some ⟨(b, k), w, m'⟩

theorem lt_of_dominated (hc : body.Checked) (hv : body.Dominated b i v) : v < body.valueCount := by
  obtain ⟨site, hsite, -⟩ := hv
  exact hc.defined_lt v (Body.mem_definedValues_of_definedAt hsite)

theorem picks_lt (hc : body.Checked) (ht : t < body.blockCount) (hp : p ∈ (body.block t).preds)
    (hv : v < body.valueCount) :
    body.picks p t v < body.valueCount := by
  by_cases hdest : v ∈ (body.block t).phiDests
  · obtain ⟨phi, hphi, rfl⟩ := List.mem_map.1 hdest
    have hnodup := Body.nodup_phiDests_block hc.defined_nodup ht
    obtain ⟨o, ho⟩ := Block.incoming?_of_mem hp ((hc.block t ht).arity phi hphi)
    rw [Body.picks_of_phi hnodup hphi ho]
    exact lt_of_dominated hc (hc.phi t ht phi hphi _ (Block.mem_zip_of_incoming? ho))
  · rwa [Body.picks_of_not_phi hdest]

variable (h : Detoured d body body') (hc : body.Checked) (hfits : d.Fits body)
include h hc hfits

theorem nodup_phiDests (ht : t < body.blockCount) : (body'.block t).phiDests.Nodup :=
  Body.nodup_phiDests_block (h.checked hc hfits).defined_nodup (h.lt_old ht)

theorem picks_eq (ht : t < body.blockCount) (hp : p ∈ (body.block t).preds)
    (hv : v ∉ (body.block t).destsBefore (d.dropped body t)) :
    body'.picks (d.comesFrom body p t) t v = body.picks p t v := by
  by_cases hdest : v ∈ (body.block t).phiDests
  · obtain ⟨phi, hphi, rfl⟩ := List.mem_map.1 hdest
    have hnodup := Body.nodup_phiDests_block hc.defined_nodup ht
    obtain ⟨o, ho⟩ := Block.incoming?_of_mem hp ((hc.block t ht).arity phi hphi)
    have hphi' : phi ∈ (body'.block t).phis := by
      rw [h.old t ht]
      exact List.mem_append_left _ hphi
    have ho' : (body'.block t).incoming? (d.comesFrom body p t) phi = some o := by
      rw [Block.incoming?_eq_some_iff (h.preds_nodup hc (h.lt_old ht)), h.preds_old ht,
        List.zip_map_right]
      exact List.mem_map_of_mem (Block.mem_zip_of_incoming? ho)
    rw [Body.picks_of_phi hnodup hphi ho,
      Body.picks_of_phi (h.nodup_phiDests hc hfits ht) hphi' ho']
  · rw [Body.picks_of_not_phi hdest, Body.picks_of_not_phi]
    rw [h.phiDests_old hfits ht, List.mem_append, not_or]
    exact ⟨hdest, hv⟩

theorem picks_freed {dest : Operand} (hfreed : d.freed = some dest) (hs : d.sources[i]? = some s) :
    body'.picks (body.blockCount + i) d.target dest = body.valueCount + i := by
  have hphi : (⟨dest, List.range' body.valueCount d.sources.length⟩ : Phi) ∈
      (body'.block d.target).phis := by
    rw [h.old _ h.target]
    refine List.mem_append_right _ ?_
    rw [Detours.phi?, if_pos rfl, hfreed]
    exact List.mem_singleton_self _
  refine (Body.picks_of_phi (h.nodup_phiDests hc hfits h.target) hphi ?_ :)
  rw [Block.incoming?_eq_some_iff (h.preds_nodup hc (h.lt_old h.target)), h.preds_old h.target,
    ← hfits.all (by simp [hfreed])]
  refine List.mem_iff_getElem?.2 ⟨i, List.getElem?_zip_eq_some.2 ⟨?_, ?_⟩⟩
  · simp [(List.getElem?_eq_some_iff.1 hs).1]
  · rw [List.getElem?_map, hs, Option.map_some, (Detours.edge_of_getElem? h.nodup hs).1]

omit hc in
theorem dropped_eq_zero (hp : p ∈ (body.block t).preds) (hfrom : d.comesFrom body p t = p)
    (hlt : p < body.blockCount) :
    d.dropped body t = 0 := by
  unfold Detours.dropped
  cases hphi : d.phi? body t with
  | none => rfl
  | some phi =>
    obtain ⟨dest, hfreed, rfl, -⟩ := Detours.exists_of_phi? hphi
    rw [← hfits.all (by simp [hfreed])] at hp
    obtain ⟨i, hi⟩ := List.mem_iff_getElem?.1 hp
    have heq := hfrom.symm.trans (Detours.edge_of_getElem? h.nodup hi).1
    exact absurd heq (Nat.ne_of_lt (Nat.lt_add_right i hlt))

theorem agrees_picks (ht : t < body.blockCount) (hp : p ∈ (body.block t).preds)
    (hagrees : Agrees body m m') (hdropped : d.dropped body t = 0) :
    Agrees body { m with store := fun v => m.store (body.picks p t v) }
      { m' with store := fun v => m'.store (body'.picks (d.comesFrom body p t) t v) } where
  store := fun v hv => by
    have hkept : v ∉ (body.block t).destsBefore (d.dropped body t) := by
      simp [hdropped, Block.destsBefore]
    simp only [h.picks_eq hc hfits ht hp hkept]
    exact hagrees.store _ (picks_lt hc ht hp hv)
  caught := hagrees.caught

/-- The handler catches what a pad catches and its phi picks up. -/
theorem agrees_caught {dest : Operand} (hfreed : d.freed = some dest) (hi : d.sources[i]? = some s)
    (hagrees : Agrees body m m') :
    Agrees body
      (Memory.after { m with store := fun v => m.store (body.picks s d.target v) } (.caught dest)
        (some m.caught))
      { m'.after (.caught (body.valueCount + i)) (some m'.caught) with
        store := fun v => (m'.after (.caught (body.valueCount + i)) (some m'.caught)).store
          (body'.picks (body.blockCount + i) d.target v) } where
  store := fun v hv => by
    by_cases hdest : v = dest
    · subst hdest
      simp only [h.picks_freed hc hfits hfreed hi]
      rw [Memory.store_after_self _ rfl, Memory.store_after_self _ rfl]
      exact hagrees.caught
    · have hpred := ((hc.block s (h.source hi).1).successors _ (h.source hi).2).2
      obtain ⟨rest, hops⟩ := caught?_eq_some (hfits.freed.trans hfreed)
      have hkept : v ∉ (body.block d.target).destsBefore (d.dropped body d.target) := by
        simp [Detours.dropped, Detours.phi?, hfreed, Block.destsBefore, hops, Op.dest?, hdest]
      have hpicks := h.picks_eq hc hfits h.target hpred hkept
      rw [(Detours.edge_of_getElem? h.nodup hi).1] at hpicks
      have hlt := picks_lt hc h.target hpred hv
      have hne : body.valueCount + i ≠ body.picks s d.target v :=
        Nat.ne_of_gt (Nat.lt_add_right i hlt)
      simp only [hpicks]
      rw [Memory.store_after_of_ne _ (by simpa [Effect.dest?] using Ne.symm hdest),
        Memory.store_after_of_ne _ (by simpa [Effect.dest?] using hne)]
      exact hagrees.store _ hlt
  caught := by simpa using hagrees.caught

/-- Control that goes from a block to another meets again in that block, however it gets there. -/
theorem meets_enter (hb : b < body.blockCount) (ht : t ∈ (body.block b).successors)
    (hagrees : Agrees body m m') :
    ∃ n, Meets (body.routine.Step host args) (body'.routine.Step host args) (Alongside d body) n
      (some (body.routine.enter (b, k) t w m))
        (some (body'.routine.enter (b, k') (d.leadsTo body b t) w m')) := by
  obtain ⟨htlt, hpred⟩ := (hc.block b hb).successors t ht
  rcases d.edge_cases body b t with ⟨hfrom, hto⟩ | ⟨i, hi, rfl, hfrom, hto⟩
  · have hdropped := h.dropped_eq_zero hfits hpred hfrom hb
    have hstore := h.agrees_picks hc hfits htlt hpred hagrees hdropped
    rw [hto]
    rw [hfrom] at hstore
    exact ⟨0, .of_related (.inr ⟨t, 0, w, _, _, htlt, hstore, by rw [hdropped]; rfl, rfl⟩)⟩
  · -- the pad has no phis
    have hpad : body'.routine.enter (b, k') (body.blockCount + i) w m' =
        ⟨(body.blockCount + i, 0), w, m'⟩ := by
      have hpicks : ∀ v, body'.picks b (body.blockCount + i) v = v := fun v =>
        Body.picks_of_not_phi (by rw [h.new i b hi]; exact List.not_mem_nil) b
      simp only [Routine.enter, Body.routine, hpicks]
    have hblock := h.new i b hi
    rw [hto, hpad]
    cases hfreed : d.freed with
    | none =>
      have hdropped : d.dropped body d.target = 0 := by simp [Detours.dropped, Detours.phi?, hfreed]
      have hgoto : (body'.block (body.blockCount + i)).ops[0]? = some (.goto d.target) := by
        rw [hblock, Detours.padCaught?, hfits.catching, hfreed]
        rfl
      have hstore := h.agrees_picks hc hfits htlt hpred hagrees hdropped
      rw [hfrom] at hstore
      exact ⟨1, 0, 1, _, _, rfl, .refl _,
        .head (slips_of_goto (Body.effect?_routine hgoto)) (.refl _),
        .inr ⟨d.target, 0, w, _, _, htlt, hstore, by rw [hdropped]; rfl, rfl⟩⟩
    | some dest =>
      have hdropped : d.dropped body d.target = 1 := by simp [Detours.dropped, Detours.phi?, hfreed]
      obtain ⟨rest, hops⟩ := caught?_eq_some (hfits.freed.trans hfreed)
      have hcaught : (body.block d.target).ops[0]? = some (.moveException dest) := by rw [hops]; rfl
      rw [Detours.padCaught?, hfits.catching, hfreed] at hblock
      have hcaught' : (body'.block (body.blockCount + i)).ops[0]? =
          some (.moveException (body.valueCount + i)) := by
        rw [hblock]
        rfl
      have hgoto : (body'.block (body.blockCount + i)).ops[1]? = some (.goto d.target) := by
        rw [hblock]
        rfl
      exact ⟨3, 1, 2, _, _, rfl,
        .head (slips_of_moves (Body.effect?_routine hcaught) .caught) (.refl _),
        .head (slips_of_moves (Body.effect?_routine hcaught') .caught)
          (.head (slips_of_goto (Body.effect?_routine hgoto)) (.refl _)),
        .inr ⟨d.target, 0, w, _, _, htlt, h.agrees_caught hc hfits hfreed hi hagrees, by
          rw [hdropped]; rfl, rfl⟩⟩

theorem lockstep : Lockstep (body.routine.Step host args) (body'.routine.Step host args)
    (Meets (body.routine.Step host args) (body'.routine.Step host args) (Alongside d body)) := by
  refine lockstep_meets ?_
  rintro a a' (⟨rfl, rfl⟩ | ⟨b, k, w, m, m', hb, hagrees, rfl, rfl⟩)
  · constructor <;> intro _ _ hstep <;> cases hstep
  have hred := h.redirected hc hfits hb
  have hget := hred.getElem?_ops k
  cases hop : (body.block b).ops[d.dropped body b + k]? with
  | none =>
    rw [hop, Option.map_none] at hget
    exact ⟨fun _ _ hstep => absurd hstep (Body.not_step_of_getElem? hop),
      fun _ _ hstep => absurd hstep (Body.not_step_of_getElem? hget)⟩
  | some op =>
    rw [hop, Option.map_some] at hget
    have hedge {t : BlockId} (hleaves : body.LeavesAt b (d.dropped body b + k) t) :=
      hc.mem_successors_of_leavesAt hleaves
    refine matched_both (Body.effect?_routine hop) (Body.effect?_routine hget)
      (Op.corresponds_mapTargets (d.leadsTo body b) op).restrict ?_ hagrees.caught ?_
    · rintro u _ ⟨hu, rfl⟩
      rw [Op.operands_effect] at hu
      exact hagrees.store u (lt_of_dominated hc (hc.use b hb _ op hop u hu))
    · refine ⟨fun seen w' value hrun => ?_, fun seen w' t t' hrun _ ht => ?_,
        fun seen w' x hrun => ?_,
        0, .of_related (.inl ⟨rfl, rfl⟩)⟩
      · refine ⟨0, .of_related (.inr ⟨b, k + 1, w', _, _, hb, ⟨fun v hv => ?_, ?_⟩, rfl, rfl⟩)⟩
        · exact Memory.store_after_eq (by simp) (hagrees.store v hv) (.inl rfl) value
        · simpa using hagrees.caught
      · obtain ⟨-, rfl⟩ := ht
        exact h.meets_enter hc hfits hb (hedge (Body.leavesAt_of_jump hop hrun)) hagrees
      · have hhandlers := hred.handlers
        simp only [Body.routine, hhandlers]
        refine List.forall₂_map_right_iff.2 (List.forall₂_same.2 fun handler hh => ⟨rfl, ?_⟩)
        exact h.meets_enter hc hfits hb (hedge (Body.leavesAt_of_raise hop hrun hh))
          ⟨hagrees.store, rfl⟩

theorem sameBehaviour (host : Host V W) (args : Nat → V) (w : W) (m : Memory V) :
    SameBehaviour (body.routine.Step host args) (body'.routine.Step host args)
      (some ⟨(0, 0), w, m⟩) (some ⟨(0, 0), w, m⟩) := by
  have hdropped : d.dropped body 0 = 0 := by
    rw [Detours.dropped, hfits.phi?_entry hc (Nat.zero_lt_of_lt h.target)]
    rfl
  exact (h.lockstep hc hfits).sameBehaviour
    (.of_related (.inr ⟨0, 0, w, m, m, Nat.zero_lt_of_lt h.target,
    ⟨fun _ _ => rfl, rfl⟩, by rw [hdropped], rfl⟩))

end Detoured

/-! ## Edges that need more -/

theorem needsPads_iff {body : Body} {b : BlockId} :
    needsPads body b = true ↔ 2 ≤ (body.block b).preds.length ∧ body.isHandlerEntry b = true := by
  simp only [needsPads, Body.isHandlerEntry, Bool.and_eq_true, decide_eq_true_eq, Bool.not_eq_true',
    List.isEmpty_eq_false_iff]
  refine and_congr_right fun hlength => (and_iff_right ?_).symm
  exact List.ne_nil_of_length_pos (by omega)

theorem preds_ne_nil {body : Body} {b : BlockId} (h : needsPads body b = true) :
    (body.block b).preds ≠ [] := by
  have hlength := (needsPads_iff.1 h).1
  exact List.ne_nil_of_length_pos (by omega)

theorem mem_criticalEdges {body : Body} {s t : BlockId} :
    (s, t) ∈ body.criticalEdges ↔ s < body.blockCount ∧ 2 ≤ (body.block s).successors.length ∧
      t ∈ (body.block s).normalSuccessors ∧ 2 ≤ (body.block t).preds.length := by
  simp only [Body.criticalEdges, List.mem_flatMap, Body.mem_blockIds]
  constructor
  · grind
  · rintro ⟨hs, hlen, ht, hpreds⟩
    refine ⟨s, hs, ?_⟩
    rw [if_neg (by omega)]
    refine List.mem_map.2 ⟨t, List.mem_filter.2 ⟨ht, ?_⟩, rfl⟩
    have hnormal : (body.block s).isExceptionalSuccessor t = false := by
      simp [Block.isExceptionalSuccessor, ht]
    simp [hnormal]
    omega

theorem nodup_criticalEdges (body : Body) : body.criticalEdges.Nodup := by
  have hsource : ∀ s e, e ∈ (let b := body.block s
      if b.successors.length < 2 then []
      else (b.normalSuccessors.filter fun target =>
        1 < (body.block target).preds.length && !b.isExceptionalSuccessor target).map fun target =>
          (s, target)) → e.1 = s := by
    intro s e he
    simp only at he
    split at he
    · simp at he
    · grind
  refine List.nodup_flatMap.2 ⟨fun s _ => ?_, ?_⟩
  · simp only
    split
    · exact List.nodup_nil
    · exact ((Block.nodup_normalSuccessors _).filter _).map fun x y h => (Prod.mk.inj h).2
  · refine List.nodup_range.imp fun {s s'} hne => ?_
    intro e he he'
    exact hne ((hsource s e he).symm.trans (hsource s' e he'))

namespace Detoured

variable {d : Detours} {body body' : Body} {b s t : BlockId}

variable (h : Detoured d body body') (hc : body.Checked) (hfits : d.Fits body)
include h hc hfits

/-- Only handlers without detours need pads afterwards. -/
theorem of_needsPads (hne : d.sources ≠ []) (hb : b < body'.blockCount)
    (hneeds : needsPads body' b = true) :
    b < body.blockCount ∧ b ≠ d.target ∧ needsPads body b = true := by
  obtain ⟨hlength, hentry⟩ := needsPads_iff.1 hneeds
  rcases h.cases hb with hb | ⟨i, s, hs, rfl⟩
  · have htarget : b ≠ d.target := by
      rintro rfl
      -- a pad goes there by a jump
      obtain ⟨s, hs⟩ : ∃ s, d.sources[0]? = some s :=
        ⟨_, List.getElem?_eq_getElem (List.length_pos_iff.2 hne)⟩
      rw [Body.isHandlerEntry, Bool.and_eq_true, List.all_eq_true] at hentry
      have hexceptional :=
        hentry.2 (body.blockCount + 0) ((h.mem_preds hc hfits (h.lt_old h.target)).2
        ⟨h.lt_new hs, by rw [h.successors_new hs]; exact List.mem_singleton_self _⟩)
      rw [h.new 0 s hs] at hexceptional
      simp [Block.isExceptionalSuccessor, Detours.normalSuccessors_pad] at hexceptional
    refine ⟨hb, htarget, needsPads_iff.2 ⟨?_, ?_⟩⟩
    · rwa [h.preds_old hb, List.length_map] at hlength
    · rwa [h.isHandlerEntry_of_ne hc hfits hb htarget] at hentry
  · rw [h.new i s hs] at hlength
    simp [Detours.pad] at hlength

theorem of_mem_criticalEdges (hmem : (s, t) ∈ body'.criticalEdges) :
    (s, t) ∈ body.criticalEdges ∧ d.leadsTo body s t = t := by
  obtain ⟨hs, hlength, ht, hpreds⟩ := mem_criticalEdges.1 hmem
  rcases h.cases hs with hs | ⟨i, p, hp, rfl⟩
  · have hred := h.redirected hc hfits hs
    rw [hred.successors, List.length_map] at hlength
    rw [hred.normalSuccessors] at ht
    obtain ⟨u, hu, rfl⟩ := List.mem_map.1 ht
    rcases d.edge_cases body s u with ⟨-, hto⟩ | ⟨i, hi, -, -, hto⟩
    · have hult := ((hc.block s hs).successors u (Block.mem_successors.2 (.inl hu))).1
      rw [hto, h.preds_old hult, List.length_map] at hpreds
      rw [hto]
      exact ⟨mem_criticalEdges.2 ⟨hs, hlength, hu, hpreds⟩, hto⟩
    · rw [hto, h.new i s hi] at hpreds
      simp [Detours.pad] at hpreds
  · rw [h.successors_new hp] at hlength
    simp at hlength

theorem mem_normalSuccessors (hs : s < body.blockCount) (ht : t ∈ (body.block s).normalSuccessors)
    (hto : d.leadsTo body s t = t) : t ∈ (body'.block s).normalSuccessors := by
  rw [(h.redirected hc hfits hs).normalSuccessors]
  exact List.mem_map.2 ⟨t, ht, hto⟩

end Detoured

/-! ## Step by step -/

/-- Detours are put on edges to one block. -/
def Reroutes (body body' : Body) : Prop := ∃ d :
    Detours, Detoured d body body' ∧ d.Fits body ∧ d.sources ≠ []

section Steps

variable {body body' : Body} {s t : BlockId}

theorem fits_splitEdge (hc : body.Checked) (hs : s < body.blockCount)
    (ht : t ∈ (body.block s).normalSuccessors) :
    Detours.Fits { target := t, sources := [s] } body where
  freed := by
    have hedge := (hc.block s hs).successors t (Block.mem_successors.2 (.inl ht))
    cases hcaught : caught? (body.block t) with
    | none => rfl
    | some dest =>
      -- a block that catches is entered by exceptions only
      obtain ⟨rest, hops⟩ := caught?_eq_some hcaught
      have hplaced := (hc.block t hedge.1).placed 0 (.moveException dest) (by rw [hops]; rfl)
      have hentry := ((Body.checkPlacement_eq_ok.1 hplaced).2.2 rfl).2
      rw [Body.isHandlerEntry, Bool.and_eq_true, List.all_eq_true] at hentry
      have := hentry.2 s hedge.2
      simp [Block.isExceptionalSuccessor, ht] at this
  catching := rfl
  all := fun h => absurd rfl h

theorem reroutes_insertPads (hc : body.Checked) (ht : t < body.blockCount)
    (hneeds : needsPads body t = true) :
    Reroutes body (insertPads body t) := by
  exact ⟨_, detoured_insertPads hc ht hneeds, ⟨rfl, rfl, fun _ => rfl⟩, preds_ne_nil hneeds⟩

/-- What stays the same, and holds all the time, while detours are put in. -/
structure Kept (body body' : Body) : Prop where
  checked : body'.Checked
  le : body.blockCount ≤ body'.blockCount
  unmixed : body.Unmixed → body'.Unmixed
  entry_phis : (body'.block 0).phis = (body.block 0).phis
  sameBehaviour : ∀ {V W : Type} (host : Host V W) (args : Nat → V) (w : W) (m : Memory V),
    SameBehaviour (body.routine.Step host args) (body'.routine.Step host args) (some ⟨(0, 0), w, m⟩)
      (some ⟨(0, 0), w, m⟩)
  pads : (∀ b < body.blockCount, needsPads body b = false) → ∀ b < body'.blockCount,
    needsPads body' b = false

theorem kept_of_reroutes (hc : body.Checked) (h : Reroutes body body') : Kept body body' := by
  obtain ⟨d, h, hfits, hne⟩ := h
  have hentry := Nat.zero_lt_of_lt h.target
  refine ⟨h.checked hc hfits, h.blockCount ▸ Nat.le_add_right _ _, h.unmixed hc hfits, ?_,
    h.sameBehaviour hc hfits, fun hnone b hb => ?_⟩
  · rw [h.old 0 hentry, Detours.block, hfits.phi?_entry hc hentry]
    exact List.append_nil _
  · rw [← Bool.not_eq_true]
    intro hneeds
    obtain ⟨hb, -, hneeds⟩ := h.of_needsPads hc hfits hne hb hneeds
    rw [hnone b hb] at hneeds
    cases hneeds

theorem kept_of_steps (hc : body.Checked) (h : Relation.ReflTransGen Reroutes body body') :
    Kept body body' := by
  induction h with
  | refl => exact ⟨hc, Nat.le_refl _, id, rfl, fun host args w m => .refl _ _, id⟩
  | tail _ hstep ih =>
    have hkept := kept_of_reroutes ih.checked hstep
    exact ⟨hkept.checked, ih.le.trans hkept.le, fun hu => hkept.unmixed (ih.unmixed hu),
      hkept.entry_phis.trans ih.entry_phis,
      fun host args w m =>
        (ih.sameBehaviour host args w m).trans (hkept.sameBehaviour host args w m),
      fun hnone => hkept.pads (ih.pads hnone)⟩

theorem foldl_padHandler (handlers : List BlockId) (acc : Body × Nat) (hc : acc.1.Checked)
    (hlt : ∀ t ∈ handlers, t < acc.1.blockCount)
    (hneeds : ∀ b < acc.1.blockCount, needsPads acc.1 b = true → b ∈ handlers) :
    Relation.ReflTransGen Reroutes acc.1 (handlers.foldl padHandler acc).1 ∧
      ∀ b < (handlers.foldl padHandler acc).1.blockCount,
        needsPads (handlers.foldl padHandler acc).1 b = false := by
  induction handlers generalizing acc with
  | nil => exact ⟨.refl, fun b hb => Bool.not_eq_true _ ▸ fun h => List.not_mem_nil (hneeds b hb h)⟩
  | cons t handlers ih =>
    rw [List.foldl_cons, padHandler]
    obtain ⟨ht, hlt⟩ := List.forall_mem_cons.1 hlt
    by_cases hpads : needsPads acc.1 t = true
    · rw [if_pos hpads]
      have hstep := reroutes_insertPads hc ht hpads
      have hdetoured := detoured_insertPads hc ht hpads
      have hrest : ∀ b < (insertPads acc.1 t).blockCount, needsPads (insertPads acc.1 t) b = true →
          b ∈ handlers := by
        intro b hb hb'
        obtain ⟨hold, hne, hb'⟩ := hdetoured.of_needsPads hc ⟨rfl, rfl, fun _ => rfl⟩
          (preds_ne_nil hpads) hb hb'
        exact (List.mem_cons.1 (hneeds b hold hb')).resolve_left hne
      obtain ⟨hsteps, hnone⟩ := ih (insertPads acc.1 t, acc.2 + (acc.1.block t).preds.length)
        (kept_of_reroutes hc hstep).checked (fun b hb => hdetoured.lt_old (hlt b hb)) hrest
      exact ⟨.head hstep hsteps, hnone⟩
    · rw [if_neg hpads]
      refine ih acc hc hlt fun b hb hb' => (List.mem_cons.1 (hneeds b hb hb')).resolve_left ?_
      rintro rfl
      exact hpads hb'

theorem foldl_splitEdge (edges : List (BlockId × BlockId)) (hc : body.Checked) (hu : body.Unmixed)
    (hnodup : edges.Nodup)
    (hedges : ∀ e ∈ edges, e.1 < body.blockCount ∧ e.2 ∈ (body.block e.1).normalSuccessors)
    (hcritical : ∀ e ∈ body.criticalEdges, e ∈ edges) :
    Relation.ReflTransGen Reroutes body (edges.foldl (fun body e => body.splitEdge e.1 e.2) body) ∧
      (edges.foldl (fun body e => body.splitEdge e.1 e.2) body).criticalEdges = [] := by
  induction edges generalizing body with
  | nil =>
    exact ⟨.refl, List.eq_nil_iff_forall_not_mem.2 fun e he => List.not_mem_nil (hcritical e he)⟩
  | cons e edges ih =>
    obtain ⟨⟨hs, ht⟩, hedges⟩ := List.forall_mem_cons.1 hedges
    obtain ⟨hnew, hnodup⟩ := List.nodup_cons.1 hnodup
    have hfits := fits_splitEdge hc hs ht
    have hdetoured := detoured_splitEdge hc hs ht fun hh => hu e.1 hs e.2 hh ht
    have hstep : Reroutes body (body.splitEdge e.1 e.2) :=
      ⟨_, hdetoured, hfits, List.cons_ne_nil _ _⟩
    have hkept := kept_of_reroutes hc hstep
    have hrest : ∀ e' ∈ edges, e'.1 < (body.splitEdge e.1 e.2).blockCount ∧
        e'.2 ∈ ((body.splitEdge e.1 e.2).block e'.1).normalSuccessors := by
      intro e' he'
      obtain ⟨hs', ht'⟩ := hedges e' he'
      refine ⟨hdetoured.lt_old hs', hdetoured.mem_normalSuccessors hc hfits hs' ht' ?_⟩
      -- the new block stands on another edge
      rcases Detours.edge_cases { target := e.2, sources := [e.1] } body e'.1 e'.2 with ⟨-, hto⟩ |
        ⟨i, hi, heq, -⟩
      · exact hto
      · have hsource := List.mem_singleton.1 (List.mem_of_getElem? hi)
        exact absurd (Prod.ext hsource heq ▸ he') hnew
    have hleft : ∀ e' ∈ (body.splitEdge e.1 e.2).criticalEdges, e' ∈ edges := by
      intro e' he'
      obtain ⟨hmem, hto⟩ := hdetoured.of_mem_criticalEdges hc hfits he'
      refine (List.mem_cons.1 (hcritical e' hmem)).resolve_left ?_
      rintro rfl
      rw [(Detours.edge_of_getElem? hdetoured.nodup (i := 0) rfl).2] at hto
      exact absurd hto.symm (Nat.ne_of_lt (Nat.lt_add_right 0 hdetoured.target))
    obtain ⟨hsteps, hnone⟩ := ih hkept.checked (hkept.unmixed hu) hnodup hrest hleft
    exact ⟨.head hstep hsteps, hnone⟩

/-- Preparing a body puts in detours until no handler needs pads and no edge is critical. -/
theorem steps_of_preparation (hc : body.Checked) (hu : body.Unmixed) :
    Relation.ReflTransGen Reroutes body (insertLandingPads body).1.splitCriticalEdges ∧
      (∀ b < (insertLandingPads body).1.splitCriticalEdges.blockCount,
        needsPads (insertLandingPads body).1.splitCriticalEdges b = false) ∧
      (insertLandingPads body).1.splitCriticalEdges.criticalEdges = [] := by
  obtain ⟨hpads, hnone⟩ := foldl_padHandler body.blockIds (body, 0) hc
    (fun t ht => Body.mem_blockIds.1 ht)
    fun b hb _ => Body.mem_blockIds.2 hb
  have hpadded := kept_of_steps hc hpads
  have hedges : ∀ e ∈ (insertLandingPads body).1.criticalEdges,
      e.1 < (insertLandingPads body).1.blockCount ∧
      e.2 ∈ ((insertLandingPads body).1.block e.1).normalSuccessors := by
    intro e he
    obtain ⟨hs, -, ht, -⟩ := mem_criticalEdges.1 he
    exact ⟨hs, ht⟩
  obtain ⟨hsplit, hcritical⟩ := foldl_splitEdge (insertLandingPads body).1.criticalEdges
    hpadded.checked (hpadded.unmixed hu)
    (nodup_criticalEdges _) hedges fun e he => he
  exact ⟨hpads.trans hsplit, (kept_of_steps hpadded.checked hsplit).pads hnone, hcritical⟩

theorem wellFormed_prepared (hwf : body.WellFormed) (hstrict : body.Strict) (hu : body.Unmixed) :
    (insertLandingPads body).1.splitCriticalEdges.WellFormed := by
  obtain ⟨hsteps, -⟩ := steps_of_preparation (hwf.checked hstrict) hu
  have hkept := kept_of_steps (hwf.checked hstrict) hsteps
  exact ⟨hkept.checked.regular (Nat.lt_of_lt_of_le hwf.nonempty hkept.le),
    hkept.entry_phis.trans hwf.entry_phis⟩

end Steps

/-! ## Prepared bodies -/

structure Prepared (body prepared : Body) : Prop where
  checked : prepared.check = .ok ()
  runs : ∀ {V W : Type} (host : Host V W) (args : Nat → V) (w : W) (m : Memory V),
    SameBehaviour (body.routine.Step host args) (prepared.routine.Step host args)
      (some ⟨(0, 0), w, m⟩) (some ⟨(0, 0), w, m⟩)
  /-- On a normal edge there is room for moves at one of its ends. -/
  edges : ∀ s < prepared.blockCount, ∀ t ∈ (prepared.block s).normalSuccessors,
    (prepared.block s).successors.length = 1 ∨ (prepared.block t).preds.length = 1
  handlers : ∀ b < prepared.blockCount, prepared.isHandlerEntry b = true →
    (prepared.block b).preds.length = 1

/-- Preparing a body keeps it valid and leaves what it does as it was, and afterwards there is a
place for moves on every edge. -/
theorem prepared_of_check (body : Body) (hcheck : body.check = .ok ()) (hunmixed : body.Unmixed) :
    Prepared body (insertLandingPads body).1.splitCriticalEdges := by
  have hc := Body.check_eq_ok_iff.1 hcheck
  obtain ⟨hsteps, hpads, hcritical⟩ := steps_of_preparation hc hunmixed
  have hkept := kept_of_steps hc hsteps
  generalize (insertLandingPads body).1.splitCriticalEdges = prepared at *
  refine ⟨Body.check_eq_ok_iff.2 hkept.checked, hkept.sameBehaviour, fun s hs t ht => ?_,
    fun b hb hentry => ?_⟩
  · have hsucc := Block.mem_successors.2 (.inl ht)
    have hpred := ((hkept.checked.block s hs).successors t hsucc).2
    have hpos := List.length_pos_of_mem hsucc
    have hpos' := List.length_pos_of_mem hpred
    by_contra hnot
    have hmem : (s, t) ∈ prepared.criticalEdges := mem_criticalEdges.2 ⟨hs, by omega, ht, by omega⟩
    rw [hcritical] at hmem
    cases hmem
  · have hpos : 0 < (prepared.block b).preds.length := by
      simp only [Body.isHandlerEntry, Bool.and_eq_true, Bool.not_eq_true',
        List.isEmpty_eq_false_iff] at hentry
      exact List.length_pos_iff.2 hentry.1
    by_contra hne
    have hneeds : needsPads prepared b = true := needsPads_iff.2 ⟨by omega, hentry⟩
    rw [hpads b hb] at hneeds
    cases hneeds

/-- Two blocks share a handler, and one of them may go straight to where the other way round
ends. -/
def sharedHandler : Body :=
  .ofBlocks ⟨⟨"p.A"⟩, "f", ⟨⟨"void"⟩, []⟩⟩ [.reference, .reference, .reference] [
    { ops := [.newInstance 0 ⟨"p.A"⟩, .goto 1], handlers := [⟨none, 3⟩] },
    { ops := [.newInstance 1 ⟨"p.A"⟩, .branch .eq 0 (some 1) 2 4], preds := [0],
      handlers := [⟨none, 3⟩] },
    { ops := [.ret none], preds := [1, 4] },
    { ops := [.moveException 2, .throw 2], preds := [0, 1] },
    { ops := [.goto 2], preds := [1] }]

theorem prepared_of_check_sharedHandler :
    (insertLandingPads sharedHandler).1.splitCriticalEdges.blockCount = 8 ∧
      Prepared sharedHandler (insertLandingPads sharedHandler).1.splitCriticalEdges := by
  refine ⟨by decide +kernel, prepared_of_check sharedHandler (by decide +kernel) ?_⟩
  unfold Body.Unmixed
  decide +kernel

end BytecodeOpt.Allocation
