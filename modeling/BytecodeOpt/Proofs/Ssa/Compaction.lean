import BytecodeOpt.Proofs.Ssa.Paring

/-!
# Dropping blocks that cannot be reached

The blocks that stay get new numbers, and their predecessor lists and phis lose what came from the
others.  The body passes the check afterwards and runs as before.
-/

namespace BytecodeOpt

open Execution

/-! ## Lists cut at one place -/

theorem eraseIdx_eq_filter {α β : Type} [DecidableEq β] {f : α → β} {xs : List α} {i : Nat} {x : α}
    (hnodup : (xs.map f).Nodup) (hx : xs[i]? = some x) :
    xs.eraseIdx i = xs.filter fun y => f y != f x := by
  induction xs generalizing i with
  | nil => simp at hx
  | cons y xs ih =>
    rw [List.map_cons, List.nodup_cons] at hnodup
    cases i with
    | zero =>
      obtain rfl : y = x := by simpa using hx
      have hall : xs.filter (fun z => f z != f y) = xs := List.filter_eq_self.2 fun z hz => by grind
      simp [hall]
    | succ i => grind

theorem zip_eraseIdx {α β : Type} (xs : List α) (ys : List β) (i : Nat) :
    (xs.eraseIdx i).zip (ys.eraseIdx i) = (xs.zip ys).eraseIdx i := by
  induction xs generalizing ys i with
  | nil => simp
  | cons x xs ih =>
    cases ys with
    | nil => simp
    | cons y ys =>
      cases i with
      | zero => rfl
      | succ i => simp [ih]

namespace Ssa

namespace Block

variable {b b' b'' : Block} {p : BlockId} {phi : Phi} {keep keep' : BlockId → Bool}

/-! ## Blocks without some of their predecessors -/

/-- A block after predecessors were taken from it; its phis lose the operands that came from
them. -/
structure Trimmed (keep : BlockId → Bool) (b b' : Block) : Prop where
  ops : b'.ops = b.ops
  handlers : b'.handlers = b.handlers
  preds : b'.preds = b.preds.filter keep
  phis : List.Forall₂ (fun phi phi' : Phi => phi'.dest = phi.dest ∧ phi'.operands.length =
    b'.preds.length ∧
    phi'.operands.zip b'.preds = (phi.operands.zip b.preds).filter fun e => keep e.2) b.phis b'.phis

/-- Predecessors are listed once, and every phi has an operand for each. -/
structure Regular (b : Block) : Prop where
  nodup : b.preds.Nodup
  arity : ∀ phi ∈ b.phis, phi.operands.length = b.preds.length

theorem Regular.trimmed_self (h : b.Regular) (hkeep : ∀ p ∈ b.preds, keep p = true) :
    Trimmed keep b b where
  ops := rfl
  handlers := rfl
  preds := (List.filter_eq_self.2 hkeep).symm
  phis := List.forall₂_same.2 fun phi hphi => ⟨rfl, h.arity phi hphi,
    (List.filter_eq_self.2 fun _ he => hkeep _ (List.of_mem_zip he).2).symm⟩

theorem Regular.removePred (h : b.Regular) (pred : BlockId) :
    Trimmed (· != pred) b (b.removePred pred) := by
  unfold Block.removePred
  split
  next hnone =>
    refine h.trimmed_self fun p hp => ?_
    simpa using List.findIdx?_eq_none_iff.1 hnone p hp
  next i hi =>
    obtain ⟨hlt, heq, -⟩ := List.findIdx?_eq_some_iff_getElem.1 hi
    obtain rfl : b.preds[i] = pred := by simpa using heq
    have hget := List.getElem?_eq_getElem hlt
    have hpreds : b.preds.eraseIdx i = b.preds.filter (· != b.preds[i]) := by
      simpa using eraseIdx_eq_filter (f := id) (by simpa using h.nodup) hget
    refine ⟨rfl, rfl, hpreds, List.forall₂_map_right_iff.2 (List.forall₂_same.2 fun phi hphi =>
      ⟨rfl, ?_, ?_⟩)⟩
    · have := h.arity phi hphi
      simp only [List.length_eraseIdx, this]
    · have harity := h.arity phi hphi
      have hzip : (phi.operands.zip b.preds)[i]? = some (phi.operands[i], b.preds[i]) := by
        simp [List.getElem?_zip_eq_some]
      rw [zip_eraseIdx, eraseIdx_eq_filter (f := Prod.snd) ?_ hzip]
      rw [List.map_snd_zip (by omega)]
      exact h.nodup

namespace Trimmed

theorem regular (h : Trimmed keep b b') (hb : b.Regular) : b'.Regular where
  nodup := h.preds ▸ hb.nodup.filter keep
  arity := fun phi' hphi' => by
    obtain ⟨phi, -, hphi⟩ := Fallible.exists_left_of_forall₂ h.phis hphi'
    exact hphi.2.1

theorem trans (h : Trimmed keep b b') (h' : Trimmed keep' b' b'') :
    Trimmed (fun p => keep p && keep' p) b b'' where
  ops := h'.ops.trans h.ops
  handlers := h'.handlers.trans h.handlers
  preds := by rw [h'.preds, h.preds, List.filter_filter]; simp only [Bool.and_comm]
  phis := by
    refine Fallible.forall₂_trans ?_ h.phis h'.phis
    rintro phi phi' phi'' ⟨hdest, -, hzip⟩ ⟨hdest', harity', hzip'⟩
    refine ⟨hdest'.trans hdest, harity', ?_⟩
    rw [hzip', hzip, List.filter_filter]
    simp only [Bool.and_comm]

theorem congr (h : Trimmed keep b b') (hkeep : ∀ p ∈ b.preds, keep p = keep' p) :
    Trimmed keep' b b' where
  ops := h.ops
  handlers := h.handlers
  preds := h.preds.trans (List.filter_congr hkeep)
  phis := h.phis.imp fun _ _ hphi => ⟨hphi.1, hphi.2.1,
    hphi.2.2.trans (List.filter_congr fun _ he => hkeep _ (List.of_mem_zip he).2)⟩

/-- Where all predecessors stay, so does the block. -/
theorem eq_self (h : Trimmed keep b b') (hb : b.Regular) (hkeep : ∀ p ∈ b.preds, keep p = true) :
    b' = b := by
  have hpreds : b'.preds = b.preds := h.preds.trans (List.filter_eq_self.2 hkeep)
  have hphis : b.phis = b'.phis := by
    rw [← List.forall₂_eq_eq_eq]
    refine ((List.forall₂_and_left _ _).2 ⟨fun phi hphi => hphi, h.phis⟩).imp fun phi phi' hboth =>
      ?_
    obtain ⟨hphi, hdest, harity, hzip⟩ := hboth
    rw [List.filter_eq_self.2 fun e he => hkeep _ (List.of_mem_zip he).2, hpreds] at hzip
    have hoperands := congrArg (List.map Prod.fst) hzip
    rw [List.map_fst_zip (by rw [harity, hpreds]),
      List.map_fst_zip (hb.arity phi hphi).le] at hoperands
    cases phi
    cases phi'
    simp_all
  obtain ⟨phis, ops, preds, handlers⟩ := b
  obtain ⟨phis', ops', preds', handlers'⟩ := b'
  have hops := h.ops
  have hhandlers := h.handlers
  simp_all

theorem phiDests_eq (h : Trimmed keep b b') : b'.phiDests = b.phiDests := by
  have hall : List.Forall₂ (fun phi phi' : Phi => phi.dest = phi'.dest) b.phis b'.phis :=
    h.phis.imp fun _ _ hphi => hphi.1.symm
  rw [phiDests, phiDests, ← List.forall₂_eq_eq_eq, List.forall₂_map_left_iff,
    List.forall₂_map_right_iff]
  exact hall.flip.imp fun _ _ heq => heq.symm

end Trimmed

theorem Regular.foldl_removePred (h : b.Regular) (dead : List BlockId) :
    Trimmed (fun p => !dead.contains p) b (dead.foldl Block.removePred b) := by
  induction dead generalizing b with
  | nil => exact h.trimmed_self (by simp)
  | cons p dead ih =>
    have hfirst := h.removePred p
    refine (hfirst.trans (ih (hfirst.regular h))).congr fun q _ => ?_
    simp [bne, Bool.beq_eq_decide_eq]

theorem Regular.dropDeadPreds (h : b.Regular) (reachable : Array Bool) :
    Trimmed (reachable.getD · false) b (Body.dropDeadPreds reachable b) := by
  refine (h.foldl_removePred _).congr fun p hp => ?_
  simp [hp]

theorem mapTerminator_eq (b : Block) (f : Op → Op) :
    b.mapTerminator f = { b with ops := (b.mapTerminator f).ops } := by
  unfold mapTerminator
  split <;> rfl

end Block

namespace Body

/-! ## Blocks changed one after another -/

section

variable {f : Block → Block} {ss : List BlockId}

theorem block_foldl_modifyBlock (hnodup : ss.Nodup) (hempty : f {} = {}) (body : Body)
    (c : BlockId) :
    (ss.foldl (fun body s => body.modifyBlock s f) body).block c = if c ∈ ss then f (body.block c)
      else body.block c := by
  induction ss generalizing body with
  | nil => simp
  | cons s ss ih =>
    rw [List.nodup_cons] at hnodup
    rw [List.foldl_cons, ih hnodup.2, block_modifyBlock]
    by_cases hs : s = c
    · subst hs
      by_cases hlt : s < body.blockCount
      · simp [hlt, hnodup.1]
      · simp [hlt, hnodup.1, block_of_le (Nat.le_of_not_lt hlt), hempty]
    · simp [hs, Ne.symm hs]

theorem blockCount_foldl_modifyBlock (f : Block → Block) (ss : List BlockId) (body : Body) :
    (ss.foldl (fun body s => body.modifyBlock s f) body).blockCount = body.blockCount := by
  induction ss generalizing body with
  | nil => rfl
  | cons s ss ih => rw [List.foldl_cons, ih, blockCount_modifyBlock]

theorem values_foldl_modifyBlock (f : Block → Block) (ss : List BlockId) (body : Body) :
    (ss.foldl (fun body s => body.modifyBlock s f) body).values = body.values := by
  induction ss generalizing body with
  | nil => rfl
  | cons s ss ih => exact (ih _).trans rfl

end

/-! ## Blocks with new numbers -/

/-- The blocks that can be reached stand in another body under other numbers, without the
predecessors that cannot. -/
structure Compacted (body body' : Body) (f : BlockId → BlockId) : Prop where
  values : body'.valueCount = body.valueCount
  entry : f 0 = 0
  inj : ∀ b c, body.Reached b → body.Reached c → f b = f c → b = c
  lt : ∀ b, body.Reached b → f b < body'.blockCount
  onto : ∀ c < body'.blockCount, ∃ b, body.Reached b ∧ f b = c
  block : ∀ b, body.Reached b → ∃ trimmed, Block.Trimmed ((body.graph.reached 0).getD · false)
    (body.block b) trimmed ∧
    body'.block (f b) = renumber f trimmed

theorem CheckedBlock.regular {body : Body} {b : BlockId} (h : body.CheckedBlock b) :
    (body.block b).Regular :=
  ⟨h.preds_nodup, h.arity⟩

namespace Compacted

variable {body body' : Body} {f : BlockId → BlockId} {b c p t : BlockId} {i k : Nat} {v : Operand}

section

variable (h : Compacted body body' f)
include h

theorem mem_preds (hb : body.Reached b) :
    c ∈ (body'.block (f b)).preds ↔ ∃ p ∈ (body.block b).preds, body.Reached p ∧ f p = c := by
  obtain ⟨trimmed, htrimmed, heq⟩ := h.block b hb
  rw [heq, renumber, List.mem_map, htrimmed.preds]
  simp only [List.mem_filter, Digraph.getD_reached, and_assoc]

/-- Each phi is one of before, with the operands that come over edges that can be taken. -/
theorem phis (hb : body.Reached b) : List.Forall₂ (fun phi phi' : Phi => phi'.dest = phi.dest ∧
    phi'.operands.length = (body'.block (f b)).preds.length ∧
    ∀ e ∈ phi'.operands.zip (body'.block (f b)).preds, ∃ p, body.Reached p ∧ f p = e.2 ∧
      (e.1, p) ∈ phi.operands.zip (body.block b).preds) (body.block b).phis
        (body'.block (f b)).phis := by
  obtain ⟨trimmed, htrimmed, heq⟩ := h.block b hb
  rw [heq, renumber, Block.mapTerminator_eq]
  refine htrimmed.phis.imp fun phi phi' hphi => ⟨hphi.1, by simpa using hphi.2.1, ?_⟩
  rintro ⟨v, c⟩ he
  rw [List.zip_map_right, List.mem_map] at he
  obtain ⟨e, he, heq'⟩ := he
  rw [hphi.2.2, List.mem_filter] at he
  obtain ⟨rfl, rfl⟩ := Prod.mk.inj heq'
  exact ⟨e.2, Digraph.getD_reached.1 he.2, rfl, he.1⟩

theorem phiDests_eq (hb : body.Reached b) :
    (body'.block (f b)).phiDests = (body.block b).phiDests := by
  obtain ⟨trimmed, htrimmed, heq⟩ := h.block b hb
  rw [heq, renumber, Block.mapTerminator_eq]
  exact htrimmed.phiDests_eq

variable (hs : body.Sound)
include hs

theorem redirected (hb : body.Reached b) : (body.block b).Redirected 0 f (body'.block (f b)) := by
  have hblock := hs.block b hb
  obtain ⟨trimmed, htrimmed, heq⟩ := h.block b hb
  have hterm : trimmed.Terminated := by
    have := hblock.terminated
    rwa [Block.Terminated, ← htrimmed.ops] at this
  have hreached : ∀ s ∈ (body.block b).normalSuccessors ++ (body.block b).handlerTargets,
      body.Reached s := fun s hs => by
    have hmem : s ∈ (body.block b).successors := by rwa [Block.successors, List.mem_eraseDups]
    exact hb.snoc (by rwa [successors_graph])
      (by rw [size_graph]; exact (hblock.successors s hmem).1) trivial
  refine ⟨hblock.terminated, by simp, ?_, ?_,
    fun s hs t ht => h.inj s t (hreached s hs) (hreached t ht)⟩
  · rw [heq, renumber, hterm.ops_mapTerminator, htrimmed.ops, List.drop_zero]
  · rw [heq, renumber, htrimmed.handlers]

theorem preds_nodup (hb : body.Reached b) : (body'.block (f b)).preds.Nodup := by
  obtain ⟨trimmed, htrimmed, heq⟩ := h.block b hb
  rw [heq, renumber, htrimmed.preds]
  refine List.Nodup.map_on (fun p hp q hq => ?_) ((hs.block b hb).preds_nodup.filter _)
  exact h.inj p q (Digraph.getD_reached.1 (List.mem_filter.1 hp).2)
    (Digraph.getD_reached.1 (List.mem_filter.1 hq).2)

theorem getElem?_ops (hb : body.Reached b) (i : Nat) :
    (body'.block (f b)).ops[i]? = (body.block b).ops[i]?.map (Op.mapTargets f) := by
  rw [(h.redirected hs hb).getElem?_ops, Nat.zero_add]

/-! ## Paths -/

theorem path {allowed : BlockId → Prop} (hb : body.graph.Path allowed 0 b) :
    body'.graph.Path (fun c => ∃ b, body.Reached b ∧ allowed b ∧ f b = c) 0 (f b) := by
  induction hb with
  | refl hlt hok =>
    have hreached : body.Reached 0 := .refl hlt trivial
    have hlt' := h.lt 0 hreached
    rw [h.entry] at hlt' ⊢
    exact .refl ((size_graph body').symm ▸ hlt') ⟨0, hreached, hok, h.entry⟩
  | @snoc b c hpath hmem hlt hok ih =>
    have hb : body.Reached b := hpath.mono fun _ _ => trivial
    have hc : body.Reached c := hb.snoc hmem hlt trivial
    refine ih.snoc ?_ ((size_graph body').symm ▸ h.lt c hc) ⟨c, hc, hok, rfl⟩
    rw [successors_graph] at hmem ⊢
    rw [(h.redirected hs hb).successors]
    exact List.mem_map_of_mem hmem

theorem exists_path {allowed : BlockId → Prop} (hc : body'.graph.Path allowed 0 c) :
    ∃ b, f b = c ∧ body.graph.Path (fun b => allowed (f b)) 0 b := by
  induction hc with
  | refl hlt hok =>
    rw [size_graph] at hlt
    obtain ⟨b, hb, -⟩ := h.onto 0 hlt
    exact ⟨0, h.entry, .refl hb.source_lt_size (h.entry.symm ▸ hok)⟩
  | @snoc c c' _ hmem hlt hok ih =>
    obtain ⟨b, rfl, hpath⟩ := ih
    have hb : body.Reached b := hpath.mono fun _ _ => trivial
    rw [successors_graph, (h.redirected hs hb).successors] at hmem
    obtain ⟨t, ht, rfl⟩ := List.mem_map.1 hmem
    exact ⟨t, rfl, hpath.snoc (by rwa [successors_graph])
      (by rw [size_graph]; exact ((hs.block b hb).successors t ht).1) hok⟩

theorem reached (hb : body.Reached b) :
    body'.Reached (f b) := (h.path hs hb).mono fun _ _ => trivial

theorem dominates {a : BlockId} (hb : body.Reached b)
    (hdom : body.dominators.dominates a b = true) :
    body'.dominators.dominates (f a) (f b) = true := by
  rw [Body.dominators, Dominators.dominates_iff hb] at hdom
  rw [Body.dominators, Dominators.dominates_iff (h.reached hs hb)]
  intro hpath
  obtain ⟨b', heq, hpath'⟩ := h.exists_path hs hpath
  obtain rfl := h.inj b' b (hpath'.mono fun _ _ => trivial) hb heq
  exact hdom (hpath'.mono fun x hne hx => hne (congrArg f hx))

/-! ## Definitions -/

def site (f : BlockId → BlockId) : DefSite → DefSite
  | .phi b => .phi (f b)
  | .op b i => .op (f b) i

theorem definedAt {s : DefSite} (hreached : body.Reached s.block) (hsite : body.DefinedAt v s) :
    body'.DefinedAt v (site f s) := by
  cases s with
  | phi b =>
    have hb : body.Reached b := hreached
    exact ⟨h.lt b hb, (h.phiDests_eq hb).symm ▸ hsite.2⟩
  | op b i =>
    have hb : body.Reached b := hreached
    obtain ⟨-, op, hop, hdest⟩ := hsite
    exact ⟨h.lt b hb, op.mapTargets f, by rw [h.getElem?_ops hs hb, hop, Option.map_some], by simpa⟩

theorem exists_definedAt {s : DefSite} (hsite : body'.DefinedAt v s) :
    ∃ old, body.DefinedAt v old ∧ body.Reached old.block ∧ s = site f old := by
  cases s with
  | phi c =>
    obtain ⟨b, hb, rfl⟩ := h.onto c hsite.1
    exact ⟨.phi b, ⟨hb.lt_blockCount, h.phiDests_eq hb ▸ hsite.2⟩, hb, rfl⟩
  | op c i =>
    obtain ⟨hc, op', hop', hdest⟩ := hsite
    obtain ⟨b, hb, rfl⟩ := h.onto c hc
    rw [h.getElem?_ops hs hb, Option.map_eq_some_iff] at hop'
    obtain ⟨op, hop, rfl⟩ := hop'
    exact ⟨.op b i, ⟨hb.lt_blockCount, op, hop, by simpa using hdest⟩, hb, rfl⟩

theorem dominated (hb : body.Reached b) (hv : body.Dominated b i v) :
    body'.Dominated (f b) i v := by
  obtain ⟨s, hsite, hbefore⟩ := hv
  have hreached := reached_of_isDefinedBefore hb hbefore
  refine ⟨site f s, h.definedAt hs hreached hsite, ?_⟩
  cases s with
  | phi d => exact h.dominates hs hb hbefore
  | op d j =>
    simp only [site, isDefinedBefore] at hbefore ⊢
    by_cases hdb : d = b
    · grind
    · rw [if_neg hdb] at hbefore
      rw [if_neg fun heq => hdb (h.inj d b hreached hb heq)]
      exact h.dominates hs hb hbefore

theorem exitPosition_eq (hp : body.Reached p) (ht : t ∈ (body.block p).successors) :
    body'.exitPosition (f p) (f t) = body.exitPosition p t := by
  rw [← exitPosition_redirected (h.redirected hs hp) ht, Nat.zero_add]

/-! ## The check -/

theorem checkedBlock (hb : body.Reached b) : body'.CheckedBlock (f b) := by
  have hblock := hs.block b hb
  have hred := h.redirected hs hb
  have hlength : (body'.block (f b)).ops.length = (body.block b).ops.length := hred.length_ops
  refine ⟨h.reached hs hb, ?_, fun i op' hop' => ?_, hred.throwsAtEnd ▸ hblock.throws_at_end,
    h.preds_nodup hs hb,
    fun c hc => ?_, fun c hc => ?_, fun phi' hphi' => ?_⟩
  · rw [hred.terminator?, Option.isSome_map]
    exact hblock.terminator
  · rw [h.getElem?_ops hs hb, Option.map_eq_some_iff] at hop'
    obtain ⟨op, hop, rfl⟩ := hop'
    obtain ⟨hend, hargument, hcaught⟩ := checkPlacement_eq_ok.1 (hblock.placed i op hop)
    simp only [checkPlacement_eq_ok, Op.isTerminator_mapTargets, Op.isArgument_mapTargets,
      Op.isMoveException_mapTargets, hlength]
    refine ⟨hend, fun harg => ?_, fun hexc => ⟨(hcaught hexc).1, ?_⟩⟩
    · obtain ⟨rfl, hall⟩ := hargument harg
      refine ⟨h.entry, ?_⟩
      rw [hred.ops, List.drop_zero, ← List.map_take, List.all_map]
      simpa [Function.comp_def] using hall
    · obtain ⟨-, hentry⟩ := hcaught hexc
      simp only [isHandlerEntry, Bool.and_eq_true, Bool.not_eq_true', List.isEmpty_eq_false_iff,
        List.all_eq_true]
        at hentry ⊢
      obtain ⟨hne, hall⟩ := hentry
      obtain ⟨p, hp, hmem⟩ : ∃ p, body.Reached p ∧ b ∈ (body.block p).successors := by
        cases hb with
        | refl => exact absurd hs.entry_preds hne
        | snoc hpath hmem _ _ => exact ⟨_, hpath, by rwa [successors_graph] at hmem⟩
      have hpred := ((hs.block p hp).successors b hmem).2
      refine ⟨List.ne_nil_of_mem ((h.mem_preds hb).2 ⟨p, hpred, hp, rfl⟩), fun c hc => ?_⟩
      obtain ⟨q, hq, hreached, rfl⟩ := (h.mem_preds hb).1 hc
      rw [(h.redirected hs hreached).isExceptionalSuccessor (hblock.preds_edge q hq).2]
      exact hall q hq
  · obtain ⟨p, hp, hreached, rfl⟩ := (h.mem_preds hb).1 hc
    refine ⟨h.lt p hreached, ?_⟩
    rw [(h.redirected hs hreached).successors]
    exact List.mem_map_of_mem (hblock.preds_edge p hp).2
  · rw [hred.successors] at hc
    obtain ⟨s, hs', rfl⟩ := List.mem_map.1 hc
    obtain ⟨hlt, hpred⟩ := hblock.successors s hs'
    have hreached : body.Reached s :=
      hb.snoc (by rwa [successors_graph]) (by rwa [size_graph]) trivial
    exact ⟨h.lt s hreached, (h.mem_preds hreached).2 ⟨b, hpred, hb, rfl⟩⟩
  · obtain ⟨phi, -, hphi⟩ := Fallible.exists_left_of_forall₂ (h.phis hb) hphi'
    exact hphi.2.1

theorem checked : body'.Checked := by
  have hsound : body'.Sound := by
    have hcheck : ∀ c, body'.Reached c → body'.CheckedBlock c := fun c hc => by
      obtain ⟨b, hb, rfl⟩ := h.onto c hc.lt_blockCount
      exact h.checkedBlock hs hb
    refine ⟨?_, hcheck, fun c hc => ?_, fun v s s' hsite hsite' _ _ => ?_, fun v s hsite _ => ?_,
      fun c hc phi' hphi' e he _ => ?_, fun c hc i op' hop' v hv => ?_⟩
    · by_cases hlt : 0 < body'.blockCount
      · obtain ⟨b, hb, -⟩ := h.onto 0 hlt
        rw [List.eq_nil_iff_forall_not_mem]
        intro c hc
        rw [← h.entry, h.mem_preds (.refl hb.source_lt_size trivial)] at hc
        obtain ⟨p, hp, -⟩ := hc
        simp [hs.entry_preds] at hp
      · rw [block_of_le (Nat.le_of_not_lt hlt)]
    · obtain ⟨b, hb, rfl⟩ := h.onto c hc.lt_blockCount
      rw [h.phiDests_eq hb]
      exact hs.phis_nodup b hb
    · obtain ⟨old, hold, hreached, rfl⟩ := h.exists_definedAt hs hsite
      obtain ⟨old', hold', hreached', rfl⟩ := h.exists_definedAt hs hsite'
      rw [hs.site_unique v old old' hold hold' hreached hreached']
    · obtain ⟨old, hold, hreached, -⟩ := h.exists_definedAt hs hsite
      rw [h.values]
      exact hs.defined_lt v old hold hreached
    · obtain ⟨b, hb, rfl⟩ := h.onto c hc.lt_blockCount
      obtain ⟨phi, hphi, -, -, hzip⟩ := Fallible.exists_left_of_forall₂ (h.phis hb) hphi'
      obtain ⟨p, hp, heq, hmem⟩ := hzip e he
      have hedge := ((hs.block b hb).preds_edge p (List.of_mem_zip hmem).2).2
      rw [← heq, h.exitPosition_eq hs hp hedge]
      exact h.dominated hs hp (hs.phi b hb phi hphi (e.1, p) hmem hp)
    · obtain ⟨b, hb, rfl⟩ := h.onto c hc.lt_blockCount
      rw [h.getElem?_ops hs hb, Option.map_eq_some_iff] at hop'
      obtain ⟨op, hop, rfl⟩ := hop'
      rw [Op.uses_mapTargets] at hv
      exact h.dominated hs hb (hs.use b hb i op hop v hv)
  refine hsound.checked fun c hc => ?_
  obtain ⟨b, hb, rfl⟩ := h.onto c hc
  exact h.reached hs hb

/-! ## Running -/

variable {V W : Type} {host : Host V W} {args : Nat → V} {w : W} {m : Memory V}

theorem picks_eq (hp : body.Reached p) (ht : body.Reached t) (hpred : p ∈ (body.block t).preds)
    (x : Operand) :
    body'.picks (f p) (f t) x = body.picks p t x := by
  by_cases hx : x ∈ (body.block t).phiDests
  · obtain ⟨phi, hphi, rfl⟩ := List.mem_map.1 hx
    obtain ⟨phi', hphi', hdest, harity, hzip⟩ := Fallible.exists_right_of_forall₂ (h.phis ht) hphi
    have hpred' : f p ∈ (body'.block (f t)).preds := (h.mem_preds ht).2 ⟨p, hpred, hp, rfl⟩
    obtain ⟨o, ho⟩ := Block.incoming?_of_mem hpred' harity
    obtain ⟨q, hq, heq, hmem⟩ := hzip _ (Block.mem_zip_of_incoming? ho)
    obtain rfl := h.inj q p hq hp heq
    rw [picks_of_phi (hs.phis_nodup t ht) hphi
      ((Block.incoming?_eq_some_iff (hs.block t ht).preds_nodup).2 hmem),
      ← hdest, picks_of_phi ((h.phiDests_eq ht).symm ▸ hs.phis_nodup t ht) hphi' ho]
  · rw [picks_of_not_phi hx, picks_of_not_phi (by rwa [h.phiDests_eq ht])]

/-- Both are at the same operation of the same block, under its two numbers. -/
def Related (body : Body) (f : BlockId → BlockId) (_ : Nat)
    (a a' : Option (Config (BlockId × Nat) V W)) : Prop :=
  (a = none ∧ a' = none) ∨ ∃ b k w m, body.Reached b ∧ a = some ⟨(b, k), w, m⟩ ∧
    a' = some ⟨(f b, k), w, m⟩

theorem related_enter (hb : body.Reached b) (hleaves : body.LeavesAt b k t) :
    Related body f 0 (some (body.routine.enter (b, k) t w m))
      (some (body'.routine.enter (f b, k) (f t) w m)) := by
  obtain ⟨ht, hpred⟩ := hs.edge_of_leavesAt hb hleaves
  refine .inr ⟨t, 0, w, _, ht, rfl, ?_⟩
  simp only [Routine.enter, routine, h.picks_eq hs hb ht hpred]

theorem lockstep : Lockstep (body.routine.Step host args) (body'.routine.Step host args)
    (Related body f) := by
  rintro n a a' (⟨rfl, rfl⟩ | ⟨b, k, w, m, hb, rfl, rfl⟩)
  · refine .inr (.inr ⟨fun _ _ hstep => ?_, fun _ _ hstep => ?_⟩) <;> cases hstep
  have hget := h.getElem?_ops hs hb k
  cases hop : (body.block b).ops[k]? with
  | none =>
    rw [hop, Option.map_none] at hget
    exact .inr (.inr ⟨fun _ _ hstep => absurd hstep (not_step_of_getElem? hop),
      fun _ _ hstep => absurd hstep (not_step_of_getElem? hget)⟩)
  | some op =>
    rw [hop, Option.map_some] at hget
    refine .inr (.inr (matched_both (effect?_routine hop) (effect?_routine hget)
      (Op.corresponds_mapTargets f op)
      (fun _ _ heq => congrArg m.store heq) rfl ?_))
    refine ⟨fun seen w' value _ => ⟨0, .inr ⟨b, k + 1, w', m.after op.effect value, hb, rfl, ?_⟩⟩,
      fun seen w' t t' hrun _ ht => ?_, fun seen w' x hrun => ?_, 0, .inl ⟨rfl, rfl⟩⟩
    · rw [m.after_congr (e := op.effect) (by simp)]
      rfl
    · subst ht
      exact ⟨0, h.related_enter hs hb (leavesAt_of_jump hop hrun)⟩
    · have hhandlers := (h.redirected hs hb).handlers
      simp only [routine, hhandlers]
      refine List.forall₂_map_right_iff.2 (List.forall₂_same.2 fun handler hh => ⟨rfl, 0, ?_⟩)
      exact h.related_enter hs hb (leavesAt_of_raise hop hrun hh)

end

end Compacted

/-! ## Removing unreachable blocks -/

section

variable {reachable : Array Bool} {n : Nat} {b : BlockId}

theorem getElem?_rank (hb : reachable.getD b false = true) (hlt : b < n) :
    ((List.range n).filter (reachable.getD · false))[rank reachable b]? = some b := by
  have hget : (List.range n)[b]? = some b := by simp [hlt]
  have hkept := getElem?_keptBefore (g := Option.guard (reachable.getD · false)) (y := b) hget
    (by simp [Option.guard, hb])
  rw [List.filterMap_eq_filter, keptBefore, List.take_range, List.filterMap_eq_filter,
    ← List.countP_eq_length_filter,
    Nat.min_eq_left hlt.le] at hkept
  exact hkept

end

theorem compacted_removeUnreachable {body : Body} (hs : body.Sound) (h : body.hasUnreachable = true)
    (hzero : body.Reached 0) :
    Compacted body body.removeUnreachable (compactId (body.graph.reached 0)) := by
  have hreached : ∀ {b}, (body.graph.reached 0).getD b false = true ↔ body.Reached b :=
    Digraph.getD_reached
  have hid : ∀ b, body.Reached b → compactId (body.graph.reached 0) b =
      rank (body.graph.reached 0) b :=
    fun b hb => if_pos (hreached.2 hb)
  have hget : ∀ b, body.Reached b →
      (body.blockIds.filter ((body.graph.reached 0).getD · false))[rank (body.graph.reached 0) b]? =
        some b :=
    fun b hb => getElem?_rank (hreached.2 hb) hb.lt_blockCount
  have hblocks : body.removeUnreachable.blocks =
      ((body.blockIds.filter ((body.graph.reached 0).getD · false)).map fun b =>
      renumber (compactId (body.graph.reached 0))
        (dropDeadPreds (body.graph.reached 0) (body.block b))).toArray := by
    unfold removeUnreachable
    rw [hasUnreachable] at h
    simp only [h, if_true]
  refine ⟨?_, by rw [hid 0 hzero]; rfl, fun b c hb hc heq => ?_, fun b hb => ?_, fun c hc => ?_,
    fun b hb => ?_⟩
  · rw [hasUnreachable] at h
    simp only [removeUnreachable, h, if_true]
    rfl
  · grind
  · rw [hid b hb, blockCount, hblocks]
    simpa using (List.getElem?_eq_some_iff.1 (hget b hb)).1
  · rw [blockCount, hblocks, List.size_toArray, List.length_map] at hc
    have hmem := List.getElem_mem hc
    rw [List.mem_filter] at hmem
    have hb := hreached.1 hmem.2
    refine ⟨_, hb, ?_⟩
    rw [hid _ hb]
    have hnodup : (body.blockIds.filter ((body.graph.reached 0).getD · false)).Nodup :=
      List.nodup_range.filter _
    obtain ⟨hlt, heq⟩ := List.getElem?_eq_some_iff.1 (hget _ hb)
    exact hnodup.getElem_inj_iff.1 heq
  · refine ⟨_, (hs.block b hb).regular.dropDeadPreds _, ?_⟩
    rw [hid b hb, block, hblocks, Array.getD_eq_getD_getElem?, List.getElem?_toArray,
      List.getElem?_map, hget b hb]
    rfl

variable {body : Body}

theorem hasUnreachable_eq_false_iff :
    body.hasUnreachable = false ↔ ∀ b < body.blockCount, body.Reached b := by
  have hget : ∀ b (hb : b < (body.graph.reached 0).size), (body.graph.reached 0)[b] = true ↔
      body.Reached b := fun b hb => by
    rw [Reached, ← Digraph.getD_reached, Table.getD_of_lt hb]
  simp [hasUnreachable, Array.mem_iff_getElem, hget, Digraph.size_reached, size_graph]

theorem not_hasUnreachable (h : ∀ b < body.blockCount, body.Reached b) :
    body.hasUnreachable = false :=
  hasUnreachable_eq_false_iff.2 h

theorem removeUnreachable_of_not (h : body.hasUnreachable = false) :
    body.removeUnreachable = body := by
  rw [hasUnreachable] at h
  simp only [removeUnreachable, h, Bool.false_eq_true, if_false]

theorem reached_zero_of_hasUnreachable (h : body.hasUnreachable = true) : body.Reached 0 := by
  have hmem : false ∈ body.graph.reached 0 := by simpa [hasUnreachable] using h
  obtain ⟨i, hi, -⟩ := Array.getElem_of_mem hmem
  rw [Digraph.size_reached] at hi
  exact .refl (Nat.zero_lt_of_lt hi) trivial

theorem rank_lt {reachable : Array Bool} {b c : BlockId}
    (hb : reachable.getD b false = true) (h : b < c) :
    rank reachable b < rank reachable c := by
  have hnext : rank reachable (b + 1) = rank reachable b + 1 := by
    rw [rank, List.range_succ, List.countP_append, List.countP_singleton, if_pos hb, rank]
  have hle : rank reachable (b + 1) ≤ rank reachable c := (List.range_sublist.2 h).countP_le
  omega

theorem renumber_id {b : Block} (h : b.Terminated) : renumber id b = b := by
  have hops : b.ops.map (Op.mapTargets id) = b.ops :=
    (List.map_congr_left fun _ _ => Op.mapTargets_id).trans (List.map_id' _)
  rw [renumber, Block.mapTerminator_eq, h.ops_mapTerminator, hops]
  simp

namespace Sound

variable (hs : body.Sound)
include hs

theorem exists_compacted :
    ∃ f, StrictMonoOn f {b | body.Reached b} ∧ Compacted body body.removeUnreachable f := by
  cases h : body.hasUnreachable with
  | false =>
    have hall := hasUnreachable_eq_false_iff.1 h
    rw [removeUnreachable_of_not h]
    refine ⟨id, strictMonoOn_id, rfl, rfl, fun _ _ _ _ heq => heq, fun _ hb => hb.lt_blockCount,
      fun c hc => ⟨c, hall c hc, rfl⟩, fun b hb => ?_⟩
    have hblock := hs.block b hb
    refine ⟨_, hblock.regular.trimmed_self fun p hp => ?_, (renumber_id hblock.terminated).symm⟩
    exact Digraph.getD_reached.2 (hall p (hblock.preds_edge p hp).1)
  | true =>
    refine ⟨_, fun b hb c hc hlt => ?_, compacted_removeUnreachable hs h
      (reached_zero_of_hasUnreachable h)⟩
    rw [compactId, compactId, if_pos (Digraph.getD_reached.2 hb),
      if_pos (Digraph.getD_reached.2 hc)]
    exact rank_lt (Digraph.getD_reached.2 hb) hlt

theorem checked_removeUnreachable : body.removeUnreachable.Checked := by
  obtain ⟨f, -, hcompacted⟩ := hs.exists_compacted
  exact hcompacted.checked hs

theorem removeUnreachable_inStep {V W : Type} (host : Host V W) (args : Nat → V) (w : W)
    (m : Memory V) :
    InStep (body.routine.Step host args) (body.removeUnreachable.routine.Step host args)
      (some ⟨(0, 0), w, m⟩) (some ⟨(0, 0), w, m⟩) := by
  cases h : body.hasUnreachable with
  | false =>
    rw [removeUnreachable_of_not h]
    exact .refl ..
  | true =>
    have hzero := reached_zero_of_hasUnreachable h
    have hcompacted := compacted_removeUnreachable hs h hzero
    refine ⟨_, 0, hcompacted.lockstep hs, .inr ⟨0, 0, w, m, hzero, rfl, ?_⟩⟩
    rw [hcompacted.entry]

end Sound

end Body

end Ssa

end BytecodeOpt
