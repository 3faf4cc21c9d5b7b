import BytecodeOpt.Allocation.Preparation
import BytecodeOpt.Proofs.Ssa.Definedness
import BytecodeOpt.Proofs.Ssa.Retargeting

/-!
# Blocks put on edges

Preparing a body for allocation puts new blocks on some of its edges, those to one block at a time,
and changes nothing else.  A handler whose edges all get pads gives up catching the exception: the
pads catch it, and a phi picks it up.
-/

namespace BytecodeOpt.Allocation

open Ssa

/-- New blocks on the edges from some blocks to one.  They may catch the exception in its place. -/
structure Detours where
  target : BlockId
  sources : List BlockId := []
  catching : Bool := false
  freed : Option Operand := none

namespace Detours

def pad (target source : BlockId) (caught : Option Operand) : Block where
  ops := (caught.map Op.moveException).toList ++ [.goto target]
  preds := [source]

variable (d : Detours) (body : Body)

/-- The new block on the edge from a block to the target, if one stands there. -/
def via? (s : BlockId) : Option BlockId := (d.sources.findIdx? (· == s)).map (body.blockCount + ·)

/-- Where an edge between old blocks now starts, and where it leads. -/
def comesFrom (s t : BlockId) : BlockId := if t = d.target then (d.via? body s).getD s else s

def leadsTo (s t : BlockId) : BlockId := if t = d.target then (d.via? body s).getD t else t

def padCaught? (i : Nat) : Option Operand := if d.catching then some (body.valueCount + i) else none

def phi? (b : BlockId) : Option Phi :=
  if b = d.target then d.freed.map fun dest => ⟨dest, List.range' body.valueCount d.sources.length⟩
    else none

def dropped (b : BlockId) : Nat := (d.phi? body b).toList.length

def block (b : BlockId) : Block where
  phis := (body.block b).phis ++ (d.phi? body b).toList
  ops := ((body.block b).ops.drop (d.dropped body b)).map (Op.mapTargets (d.leadsTo body b))
  preds := (body.block b).preds.map (d.comesFrom body · b)
  handlers := (body.block b).handlers.map fun h => { h with target := d.leadsTo body b h.target }

variable {d body} {s t m : BlockId} {i : Nat}

theorem via?_eq_some (h : d.via? body s = some m) :
    ∃ i, d.sources[i]? = some s ∧ m = body.blockCount + i := by
  obtain ⟨i, hi, rfl⟩ := Option.map_eq_some_iff.1 h
  obtain ⟨hlt, heq, -⟩ := List.findIdx?_eq_some_iff_getElem.1 hi
  exact ⟨i, by rw [List.getElem?_eq_getElem hlt, beq_iff_eq.1 heq], rfl⟩

theorem via?_eq_none : d.via? body s = none ↔ s ∉ d.sources := by
  rw [via?, Option.map_eq_none_iff, List.findIdx?_eq_none_iff]
  simp only [beq_eq_false_iff_ne, ne_eq]
  exact ⟨fun h hs => h s hs rfl, fun h x hx heq => h (heq ▸ hx)⟩

theorem via?_of_getElem? (hnodup : d.sources.Nodup) (hs : d.sources[i]? = some s) :
    d.via? body s = some (body.blockCount + i) := by
  cases hvia : d.via? body s with
  | none => exact absurd (List.mem_of_getElem? hs) (via?_eq_none.1 hvia)
  | some m =>
    obtain ⟨j, hj, rfl⟩ := via?_eq_some hvia
    obtain ⟨hilt, heq⟩ := List.getElem?_eq_some_iff.1 hs
    obtain ⟨hjlt, heq'⟩ := List.getElem?_eq_some_iff.1 hj
    rw [hnodup.getElem_inj_iff.1 (heq.trans heq'.symm)]

theorem le_of_via? (h : d.via? body s = some m) : body.blockCount ≤ m := by
  obtain ⟨i, -, rfl⟩ := via?_eq_some h
  exact Nat.le_add_right _ i

theorem comesFrom_of_not_mem (h : s ∉ d.sources) (t : BlockId) : d.comesFrom body s t = s := by
  rw [comesFrom, via?_eq_none.2 h, Option.getD_none, ite_self]

theorem leadsTo_of_not_mem (h : s ∉ d.sources) (t : BlockId) : d.leadsTo body s t = t := by
  rw [leadsTo, via?_eq_none.2 h, Option.getD_none, ite_self]

/-- An edge is as it was, or a new block stands on it. -/
theorem edge_cases (d : Detours) (body : Body) (s t : BlockId) :
    (d.comesFrom body s t = s ∧ d.leadsTo body s t = t) ∨
      ∃ i, d.sources[i]? = some s ∧ t = d.target ∧ d.comesFrom body s t = body.blockCount + i ∧
        d.leadsTo body s t = body.blockCount + i := by
  by_cases ht : t = d.target
  · cases hvia : d.via? body s with
    | none => exact .inl ⟨comesFrom_of_not_mem (via?_eq_none.1 hvia) t,
        leadsTo_of_not_mem (via?_eq_none.1 hvia) t⟩
    | some m =>
      obtain ⟨i, hi, rfl⟩ := via?_eq_some hvia
      exact .inr ⟨i, hi, ht, by rw [comesFrom, if_pos ht, hvia, Option.getD_some],
        by rw [leadsTo, if_pos ht, hvia, Option.getD_some]⟩
  · exact .inl ⟨if_neg ht, if_neg ht⟩

theorem edge_of_getElem? (hnodup : d.sources.Nodup) (hs : d.sources[i]? = some s) :
    d.comesFrom body s d.target = body.blockCount + i ∧ d.leadsTo body s d.target =
      body.blockCount + i := by
  rw [comesFrom, leadsTo, if_pos rfl, if_pos rfl, via?_of_getElem? hnodup hs]
  exact ⟨rfl, rfl⟩

theorem leadsTo_inj {t' : BlockId} (ht : t < body.blockCount) (ht' : t' < body.blockCount)
    (h : d.leadsTo body s t = d.leadsTo body s t') : t = t' := by
  rcases d.edge_cases body s t with ⟨-, hold⟩ | ⟨i, -, rfl, -, hnew⟩
  · rcases d.edge_cases body s t' with ⟨-, hold'⟩ | ⟨j, -, rfl, -, hnew'⟩
    · rwa [hold, hold'] at h
    · rw [hold, hnew'] at h
      exact absurd h (Nat.ne_of_lt (Nat.lt_add_right j ht))
  · rcases d.edge_cases body s t' with ⟨-, hold'⟩ | ⟨j, -, rfl, -⟩
    · rw [hnew, hold'] at h
      exact absurd h.symm (Nat.ne_of_lt (Nat.lt_add_right i ht'))
    · rfl

theorem comesFrom_inj {s' : BlockId} (hs : s < body.blockCount) (hs' : s' < body.blockCount)
    (h : d.comesFrom body s t = d.comesFrom body s' t) : s = s' := by
  rcases d.edge_cases body s t with ⟨hold, -⟩ | ⟨i, hi, -, hnew, -⟩
  · rcases d.edge_cases body s' t with ⟨hold', -⟩ | ⟨j, -, -, hnew', -⟩
    · rwa [hold, hold'] at h
    · rw [hold, hnew'] at h
      exact absurd h (Nat.ne_of_lt (Nat.lt_add_right j hs))
  · rcases d.edge_cases body s' t with ⟨hold', -⟩ | ⟨j, hj, -, hnew', -⟩
    · rw [hnew, hold'] at h
      exact absurd h.symm (Nat.ne_of_lt (Nat.lt_add_right i hs'))
    · obtain rfl : i = j := Nat.add_left_cancel (hnew.symm.trans (h.trans hnew'))
      exact Option.some.inj (hi.symm.trans hj)

end Detours

structure Detoured (d : Detours) (body body' : Body) : Prop where
  target : d.target < body.blockCount
  edge : ∀ s ∈ d.sources, s < body.blockCount ∧ d.target ∈ (body.block s).successors
  nodup : d.sources.Nodup
  blockCount : body'.blockCount = body.blockCount + d.sources.length
  valueCount : body'.valueCount = body.valueCount + if d.catching then d.sources.length else 0
  old : ∀ b < body.blockCount, body'.block b = d.block body b
  new : ∀ (i : Nat) (s : BlockId), d.sources[i]? = some s →
    body'.block (body.blockCount + i) = Detours.pad d.target s (d.padCaught? body i)

/-! ## One more detour -/

def divert (target middle : BlockId) (t : BlockId) : BlockId := if t = target then middle else t

def divertBlock (source target middle : BlockId) (b : BlockId) (block : Block) : Block where
  phis := block.phis
  ops := if b = source then block.ops.map (Op.mapTargets (divert target middle)) else block.ops
  preds := if b = target then block.preds.map (divert source middle) else block.preds
  handlers := if b = source then
      block.handlers.map fun h => { h with target := divert target middle h.target }
    else block.handlers

section Steps

variable {d : Detours} {body body' body'' : Body} {s : BlockId}

theorem detoured_refl {target : BlockId} (htarget : target < body.blockCount) (catching : Bool) :
    Detoured { target, catching } body body where
  target := htarget
  edge := by simp
  nodup := List.nodup_nil
  blockCount := rfl
  valueCount := by simp
  old := by
    intro b _
    have hleads : Detours.leadsTo { target, catching } body b = id :=
      funext (Detours.leadsTo_of_not_mem List.not_mem_nil)
    have hfrom (s : BlockId) : Detours.comesFrom { target, catching } body s b = s :=
      Detours.comesFrom_of_not_mem List.not_mem_nil b
    have hops : (body.block b).ops.map (Op.mapTargets id) = (body.block b).ops :=
      (List.map_congr_left fun _ _ => Op.mapTargets_id).trans (List.map_id' _)
    refine Block.eq_of_fields ?_ ?_ ?_ ?_ <;> simp [Detours.block, Detours.dropped, Detours.phi?,
      hleads, hfrom, hops]
  new := by simp

theorem Detoured.snoc (h : Detoured d body body') (hfreed : d.freed = none)
    (hs : s < body.blockCount ∧ d.target ∈ (body.block s).successors) (hnew : s ∉ d.sources)
    (hcount : body''.blockCount = body'.blockCount + 1)
    (hblock : ∀ b < body'.blockCount, body''.block b = divertBlock s d.target body'.blockCount b
      (body'.block b))
    (hlast : body''.block body'.blockCount = Detours.pad d.target s
      (d.padCaught? body d.sources.length))
    (hvalues : body''.valueCount = body'.valueCount + d.catching.toNat) :
    Detoured { d with sources := d.sources ++ [s] } body body'' := by
  have hvia (p : BlockId) : Detours.via? { d with sources := d.sources ++ [s] } body p =
      if p = s then some (body.blockCount + d.sources.length) else d.via? body p := by
    rw [Detours.via?, Detours.via?, List.findIdx?_append]
    by_cases hp : p = s
    · subst hp
      have hnone : d.sources.findIdx? (· == p) = none := by
        rw [List.findIdx?_eq_none_iff]
        simp only [beq_eq_false_iff_ne, ne_eq]
        exact fun x hx heq => hnew (heq ▸ hx)
      simp [hnone]
    · simp [hp, Ne.symm hp, List.findIdx?_cons]
  have hleads (t : BlockId) : divert d.target body'.blockCount (d.leadsTo body s t) =
      Detours.leadsTo { d with sources := d.sources ++ [s] } body s t := by
    rw [Detours.leadsTo_of_not_mem hnew, Detours.leadsTo, hvia, if_pos rfl, h.blockCount]
    rfl
  have hothers {b : BlockId} (hb : b ≠ s) :
      Detours.leadsTo { d with sources := d.sources ++ [s] } body b =
      d.leadsTo body b := by
    funext t
    rw [Detours.leadsTo, hvia, if_neg hb]
    rfl
  have hfrom (p : BlockId) : divert s body'.blockCount (d.comesFrom body p d.target) =
      Detours.comesFrom { d with sources := d.sources ++ [s] } body p d.target := by
    rw [Detours.comesFrom, Detours.comesFrom, if_pos rfl, if_pos rfl, hvia, divert]
    by_cases hp : p = s
    · subst hp
      rw [Detours.via?_eq_none.2 hnew, Option.getD_none, if_pos rfl, if_pos rfl, h.blockCount,
        Option.getD_some]
    · rw [if_neg hp]
      refine if_neg ?_
      cases hm : d.via? body p with
      | none => exact hp
      | some m => exact fun heq => absurd (heq ▸ Detours.le_of_via? hm) (Nat.not_le_of_lt hs.1)
  constructor
  case target => exact h.target
  case edge => exact List.forall_mem_append.2 ⟨h.edge, by simpa using hs⟩
  case nodup =>
    refine List.nodup_append.2 ⟨h.nodup, List.nodup_singleton s, fun x hx y hy heq => hnew ?_⟩
    rw [← List.mem_singleton.1 hy, ← heq]
    exact hx
  case blockCount => rw [hcount, h.blockCount, List.length_append, List.length_singleton,
    Nat.add_assoc]
  case valueCount =>
    rw [hvalues, h.valueCount, List.length_append]
    cases d.catching <;> simp [Nat.add_assoc]
  case old =>
    intro b hb
    rw [hblock b (by rw [h.blockCount]; omega), h.old b hb]
    have hphi (sources : List BlockId) : Detours.phi? { d with sources } body b = none := by
      simp [Detours.phi?, hfreed]
    refine Block.eq_of_fields ?_ ?_ ?_ ?_ <;> simp only [divertBlock, Detours.block,
      Detours.dropped, hphi]
    · by_cases hbs : b = s
      · rw [if_pos hbs, List.map_map, hbs]
        refine List.map_congr_left fun op _ => ?_
        rw [Function.comp_apply, Op.mapTargets_mapTargets]
        exact congrArg (Op.mapTargets · op) (funext hleads)
      · rw [if_neg hbs, hothers hbs]
    · by_cases hbt : b = d.target
      · rw [if_pos hbt, List.map_map, hbt]
        exact List.map_congr_left fun p _ => hfrom p
      · rw [if_neg hbt]
        exact List.map_congr_left fun p _ => (if_neg hbt).trans (if_neg hbt).symm
    · by_cases hbs : b = s
      · rw [if_pos hbs, List.map_map, hbs]
        exact List.map_congr_left fun e _ => by rw [Function.comp_apply, hleads]
      · rw [if_neg hbs, hothers hbs]
  case new =>
    intro i p hp
    rcases Nat.lt_trichotomy i d.sources.length with hlt | rfl | hgt
    · rw [List.getElem?_append_left hlt] at hp
      have hsource : body.blockCount + i ≠ s := Nat.ne_of_gt (Nat.lt_add_right i hs.1)
      have htarget : body.blockCount + i ≠ d.target := Nat.ne_of_gt (Nat.lt_add_right i h.target)
      rw [hblock _ (by rw [h.blockCount]; omega), h.new i p hp]
      simp [divertBlock, hsource, htarget, Detours.pad, Detours.padCaught?]
    · obtain rfl : s = p := by simpa using hp
      rw [← h.blockCount, hlast]
      rfl
    · rw [List.getElem?_eq_none (by simpa using Nat.succ_le_of_lt hgt)] at hp
      cases hp

end Steps

/-! ## Split edges -/

section Split

variable {body : Body} {s t b : BlockId}

theorem handlers_divert_of_not_mem {handlers : List Handler} {m : BlockId}
    (h : t ∉ handlers.map Handler.target) :
    (handlers.map fun e => { e with target := divert t m e.target }) = handlers := by
  refine (List.map_congr_left fun e he => ?_).trans (List.map_id' handlers)
  have hne : e.target ≠ t := fun heq => h (heq ▸ List.mem_map_of_mem he)
  rw [divert, if_neg hne]

@[simp] theorem blockCount_splitEdge : (body.splitEdge s t).blockCount = body.blockCount + 1 := by
  simp [Body.splitEdge, Body.retargetEdge]

theorem mapTerminator_fields (block : Block) (f : Op → Op) :
    (block.mapTerminator f).phis = block.phis ∧ (block.mapTerminator f).preds = block.preds ∧
      (block.mapTerminator f).handlers = block.handlers := by
  unfold Block.mapTerminator
  split <;> exact ⟨rfl, rfl, rfl⟩

theorem block_splitEdge (hb : b < body.blockCount) (hterm : (body.block s).Terminated)
    (hhandlers : t ∉ (body.block s).handlerTargets) :
    (body.splitEdge s t).block b = divertBlock s t body.blockCount b (body.block b) := by
  have hne : b ≠ body.blockCount := Nat.ne_of_lt hb
  have hlt : b < body.blockCount + 1 := Nat.lt_succ_of_lt hb
  -- the source first leads elsewhere, then the target learns of it
  have hsource : ((body.addBlock { ops := [.goto t], preds := [s] }).retargetEdge s t
      body.blockCount).block b =
        { body.block b with ops := (divertBlock s t body.blockCount b (body.block b)).ops } := by
    simp only [Body.retargetEdge, Body.block_modifyBlock, Body.block_addBlock,
      Body.blockCount_addBlock, hne, if_false, hlt, and_true, divertBlock, eq_comm (a := s)]
    by_cases hs : b = s
    · subst hs
      obtain ⟨hphis, hpreds, hkept⟩ := mapTerminator_fields (body.block b)
        (Op.mapTargets (divert t body.blockCount))
      rw [if_pos rfl, if_pos rfl]
      exact Block.eq_of_fields hphis (hterm.ops_mapTerminator _) hpreds hkept
    · rw [if_neg hs, if_neg hs]
  have hkept : (divertBlock s t body.blockCount b (body.block b)).handlers =
      (body.block b).handlers := by
    simp only [divertBlock]
    split
    · rename_i hs
      exact handlers_divert_of_not_mem (hs ▸ hhandlers)
    · rfl
  rw [Body.splitEdge, Body.block_modifyBlock]
  by_cases ht : t = b
  · rw [if_pos ⟨ht, by simpa [Body.retargetEdge] using hlt⟩, hsource]
    refine Block.eq_of_fields rfl rfl ?_ hkept.symm
    rw [divertBlock, if_pos ht.symm]
    rfl
  · rw [if_neg fun h => ht h.1, hsource]
    refine Block.eq_of_fields rfl rfl ?_ hkept.symm
    rw [divertBlock, if_neg (Ne.symm ht)]

theorem block_splitEdge_new (hs : s < body.blockCount) (ht : t < body.blockCount) :
    (body.splitEdge s t).block body.blockCount = { ops := [.goto t], preds := [s] } := by
  have hs' : s ≠ body.blockCount := Nat.ne_of_lt hs
  have ht' : t ≠ body.blockCount := Nat.ne_of_lt ht
  simp [Body.splitEdge, Body.retargetEdge, Body.block_modifyBlock, Body.block_addBlock, hs', ht']

theorem detoured_splitEdge (hc : body.Checked) (hs : s < body.blockCount)
    (ht : t ∈ (body.block s).normalSuccessors) (hhandlers : t ∉ (body.block s).handlerTargets) :
    Detoured { target := t, sources := [s] } body (body.splitEdge s t) := by
  have hsucc : t ∈ (body.block s).successors := Block.mem_successors.2 (.inl ht)
  have htlt := ((hc.block s hs).successors t hsucc).1
  exact (detoured_refl htlt false).snoc rfl ⟨hs, hsucc⟩ List.not_mem_nil blockCount_splitEdge
    (fun b hb => block_splitEdge hb (hc.block s hs).terminated hhandlers)
    (block_splitEdge_new hs htlt) rfl

end Split

/-! ## Landing pads -/

section Pads

variable {body : Body} {handler pred b : BlockId} {catching : Bool} {index : Nat}

theorem set_eq_map_divert {xs : List BlockId} (hnodup : xs.Nodup) {i : Nat} {x m : BlockId}
    (hi : xs[i]? = some x) : xs.set i m = xs.map (divert x m) := by
  obtain ⟨hlt, rfl⟩ := List.getElem?_eq_some_iff.1 hi
  refine List.ext_getElem (by simp) fun j hj _ => ?_
  have hj : j < xs.length := by simpa using hj
  rw [List.getElem_set, List.getElem_map, divert]
  by_cases hij : i = j
  · subst hij
    simp
  · rw [if_neg hij, if_neg fun h => hij ((hnodup.getElem_inj_iff).1 h).symm]

@[simp] theorem blockCount_insertPad :
    (insertPad handler catching body pred index).blockCount = body.blockCount + 1 := by
  cases catching <;> simp [insertPad]

theorem valueCount_insertPad :
    (insertPad handler catching body pred index).valueCount = body.valueCount + catching.toNat := by
  cases catching <;> simp [insertPad]

theorem block_insertPad (hb : b < body.blockCount) (hnodup : (body.block handler).preds.Nodup)
    (hpred : (body.block handler).preds[index]? = some pred)
    (htargets : ∀ op ∈ (body.block pred).ops, handler ∉ op.targets) :
    (insertPad handler catching body pred index).block b =
      divertBlock pred handler body.blockCount b (body.block b) := by
  have hne : b ≠ body.blockCount := Nat.ne_of_lt hb
  have hlt : b < body.blockCount + 1 := Nat.lt_succ_of_lt hb
  have hblock : (insertPad handler catching body pred index).block b = {
      body.block b with
      preds := if handler = b then (body.block b).preds.set index body.blockCount
        else (body.block b).preds
      handlers := if pred = b then (body.block b).handlers.map fun h =>
          if h.target = handler then { h with target := body.blockCount } else h
        else (body.block b).handlers } := by
    cases catching <;>
      simp only [insertPad, Body.block_modifyBlock, Body.blockCount_modifyBlock,
        Body.block_addBlock,
        Body.blockCount_addBlock, Body.block_addValue, Body.blockCount_addValue, hne, hlt, and_true,
          if_true, if_false,
        Bool.false_eq_true] <;>
      split <;> split <;> rfl
  rw [hblock]
  refine Block.eq_of_fields rfl ?_ ?_ ?_ <;> simp only [divertBlock, eq_comm (a := b)]
  · split
    · rename_i heq
      refine ((List.map_congr_left fun op hop => ?_).trans (List.map_id' _)).symm
      have hkept : ∀ t ∈ op.targets, divert handler body.blockCount t = id t := fun t ht =>
        if_neg fun ht' : t = handler => htargets op (heq ▸ hop) (ht' ▸ ht)
      rw [Op.mapTargets_congr hkept, Op.mapTargets_id]
    · rfl
  · split
    · rename_i heq
      subst heq
      exact set_eq_map_divert hnodup hpred
    · rfl
  · split
    · refine List.map_congr_left fun h _ => ?_
      unfold divert
      split <;> rfl
    · rfl

theorem block_insertPad_new (hpred : pred < body.blockCount)
    (hhandler : handler < body.blockCount) :
    (insertPad handler catching body pred index).block body.blockCount =
      Detours.pad handler pred (if catching then some body.valueCount else none) := by
  have hpred' : pred ≠ body.blockCount := Nat.ne_of_lt hpred
  have hhandler' : handler ≠ body.blockCount := Nat.ne_of_lt hhandler
  cases catching <;>
    simp [insertPad, Body.block_modifyBlock, Body.block_addBlock, hpred', hhandler', Detours.pad]

variable (hc : body.Checked) (hhandler : handler < body.blockCount)
include hc hhandler

theorem detoured_foldl_insertPad (catching : Bool)
    (hexceptional : ∀ p ∈ (body.block handler).preds,
      (body.block p).isExceptionalSuccessor handler = true)
    (done rest : List BlockId) (hpreds : (body.block handler).preds = done ++ rest) :
    Detoured { target := handler, sources := done, catching } body
      (done.zipIdx.foldl (fun body e => insertPad handler catching body e.1 e.2) body) := by
  -- the pads come one by one, the last one behind the others
  induction done using List.reverseRecOn generalizing rest with
  | nil => exact detoured_refl hhandler catching
  | append_singleton done p ih =>
    have hdone := ih (p :: rest) (by simpa using hpreds)
    have hnodup := (hc.block handler hhandler).preds_nodup
    have hmem : p ∈ (body.block handler).preds := by simp [hpreds]
    have hnew : p ∉ done := fun hp => by
      rw [hpreds, List.nodup_append, List.nodup_append] at hnodup
      exact hnodup.1.2.2 p hp p List.mem_cons_self rfl
    have hp := (hc.block handler hhandler).preds_edge p hmem
    rw [List.zipIdx_append, List.foldl_append]
    simp only [Nat.zero_add, List.zipIdx_singleton, List.foldl_cons, List.foldl_nil]
    generalize done.zipIdx.foldl (fun body e => insertPad handler catching body e.1 e.2) body =
      body' at hdone ⊢
    have hlt {c : BlockId} (hc : c < body.blockCount) : c < body'.blockCount := by
      rw [hdone.blockCount]
      exact Nat.lt_add_right _ hc
    have hpreds' : (body'.block handler).preds =
        (body.block handler).preds.map
          (Detours.comesFrom { target := handler, sources := done, catching } body · handler) := by
      rw [hdone.old handler hhandler, Detours.block]
    refine hdone.snoc rfl hp hnew blockCount_insertPad (fun b hb => block_insertPad hb ?_ ?_ ?_) ?_
      valueCount_insertPad
    · rw [hpreds']
      refine hnodup.map_on fun s hs s' hs' heq => Detours.comesFrom_inj ?_ ?_ heq
      · exact ((hc.block handler hhandler).preds_edge s hs).1
      · exact ((hc.block handler hhandler).preds_edge s' hs').1
    · rw [hpreds', List.getElem?_map, hpreds]
      simpa using Detours.comesFrom_of_not_mem
        (d := { target := handler, sources := done, catching }) hnew handler
    · -- the edge is exceptional, so the terminator does not lead there
      intro op' hop' ht
      rw [hdone.old p hp.1, Detours.block] at hop'
      obtain ⟨op, hop, rfl⟩ := List.mem_map.1 hop'
      rw [Op.targets_mapTargets,
        (funext (Detours.leadsTo_of_not_mem hnew) : Detours.leadsTo _ body p = id), List.map_id]
        at ht
      have hnormal := (hc.block p hp.1).terminated.mem_normalSuccessors
        (List.mem_of_mem_drop hop) ht
      simpa [Block.isExceptionalSuccessor, hnormal] using hexceptional p hmem
    · rw [block_insertPad_new (hlt hp.1) (hlt hhandler), hdone.valueCount]
      cases catching <;> simp [Detours.padCaught?]

theorem detoured_insertPads (hneeds : needsPads body handler = true) :
    Detoured {
      target := handler
      sources := (body.block handler).preds
      catching := (caught? (body.block handler)).isSome
      freed := caught? (body.block handler) } body (insertPads body handler) := by
  have hexceptional : ∀ p ∈ (body.block handler).preds,
      (body.block p).isExceptionalSuccessor handler = true := by
    simp only [needsPads, Bool.and_eq_true, List.all_eq_true] at hneeds
    exact hneeds.2
  have hpadded := detoured_foldl_insertPad hc hhandler (caught? (body.block handler)).isSome
    hexceptional _ []
    (List.append_nil _).symm
  unfold insertPads
  cases hcaught : caught? (body.block handler) with
  | none => simpa only [hcaught] using hpadded
  | some dest =>
    simp only [hcaught] at hpadded ⊢
    -- the handler gives up the exception to a phi
    refine ⟨hhandler, hpadded.edge, hpadded.nodup, ?_, hpadded.valueCount, fun b hb => ?_,
      fun i s hs => ?_⟩
    · rw [Body.blockCount_modifyBlock, hpadded.blockCount]
    · have hlt : b < body.blockCount + (body.block handler).preds.length := Nat.lt_add_right _ hb
      rw [Body.block_modifyBlock, hpadded.old b hb, hpadded.blockCount]
      by_cases heq : handler = b
      · rw [if_pos ⟨heq, hlt⟩]
        refine Block.eq_of_fields ?_ ?_ rfl rfl
        · simp [Detours.block, Detours.phi?, heq]
        · simp [Detours.block, Detours.dropped, Detours.phi?, heq]
          rfl
      · rw [if_neg fun h => heq h.1]
        refine Block.eq_of_fields ?_ ?_ rfl rfl <;> simp [Detours.block, Detours.dropped,
          Detours.phi?, Ne.symm heq]
        exact fun _ _ => rfl
    · have hne : handler ≠ body.blockCount + i := Nat.ne_of_lt (Nat.lt_add_right i hhandler)
      rw [Body.block_modifyBlock, if_neg fun h => hne h.1, hpadded.new i s hs]
      rfl

end Pads

end BytecodeOpt.Allocation
