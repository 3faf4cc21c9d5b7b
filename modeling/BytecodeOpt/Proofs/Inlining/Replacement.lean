import BytecodeOpt.Proofs.Inlining.Copy
import BytecodeOpt.Proofs.Inlining.Receiver

/-!
# A call and the copy in its place

Where a call is replaced by a copy of its callee, the body still passes the check, and the body with
the call is one whose call can be expanded to the copy.
-/

namespace BytecodeOpt

namespace Ssa.Body

theorem Checked.withValues {body : Body} (h : body.Checked) {values : Array ValueType}
    (hle : body.values.size ≤ values.size) : Checked { body with values } :=
  { h with
    block := fun b hb => { h.block b hb with }
    defined_lt := fun v hv => Nat.lt_of_lt_of_le (h.defined_lt v hv) hle }

theorem block_replaceUses (body : Body) {v target : Operand} (hne : target ≠ v) (c : BlockId) :
    (body.replaceUses v target).block c =
      (body.block c).mapUses fun u => if u = v then target else u := by
  rw [replaceUses_eq_mapBlocks body hne]
  exact block_mapBlocks body c rfl

end Ssa.Body

namespace Pass.Inlining

open Execution Ssa

variable {s : Setting} {p : Progress} {b : BlockId} {index : Nat} {kind : InvokeKind}
  {method : MethodId}
  {args : List Operand} {dest returned : Option Operand} {m : Method} {callee body' : Body}
  {straight : StraightBody} {ops : List Op}

def calleeOf (kind : InvokeKind) (m : Method) (callee : Body) : Callee (BlockId × Nat) :=
  ⟨callee.routine, (0, 0), kind.hasReceiver && !m.flags.isStatic⟩

/-- The same without the check of a receiver that is known not to be null. -/
def trustingCallee (kind : InvokeKind) (m caller : Method) (callee body : Body)
    (args : List Operand) :
    Callee (BlockId × Nat) :=
  { calleeOf kind m callee with
    checksReceiver := (calleeOf kind m callee).checksReceiver &&
      args.head?.all (mayBeNull body caller) }

theorem guards_trustingCallee (kind : InvokeKind) (m caller : Method) (callee body : Body)
    (args : List Operand) :
    (trustingCallee kind m caller callee body args).guards args =
      receiverCheck body caller m kind args := by
  cases args with
  | nil => simp [Callee.guards, Callee.checked, receiverCheck]
  | cons receiver rest =>
    have hchecks : (trustingCallee kind m caller callee body (receiver :: rest)).checksReceiver =
        (kind.hasReceiver && !m.flags.isStatic && mayBeNull body caller receiver) := rfl
    rw [Callee.guards, Callee.checked, receiverCheck, hchecks]
    split <;> simp_all

theorem dests_receiverCheck (body : Body) (caller m : Method) (kind : InvokeKind)
    (args : List Operand) :
    dests (receiverCheck body caller m kind args) = [] := by
  unfold receiverCheck
  split
  · split <;> rfl
  · rfl

/-- Operations stand in place of one, and what was read is read under the name that `r` gives it. -/
structure Replaces (body body' : Body) (r : Operand → Operand) (b : BlockId) (index : Nat)
    (inlined : List Op) : Prop where
  count : body'.blockCount = body.blockCount
  here : body'.block b = Block.mapUses { body.block b with
    ops := (body.block b).ops.take index ++ inlined ++ (body.block b).ops.drop (index + 1) } r
  others : ∀ c, c ≠ b → body'.block c = (body.block c).mapUses r

theorem Replaces.replaceUses {body : Body} {inlined : List Op} {d u : Operand}
    (h : Replaces body body' id b index inlined) (hne : u ≠ d) :
    Replaces body (body'.replaceUses d u) (fun v => if v = d then u else v) b index inlined := by
  refine ⟨?_, ?_, fun c hc => ?_⟩
  · rw [← h.count]
    exact Body.blockCount_mapBlocks ..
  · rw [Body.block_replaceUses _ hne, h.here, Block.mapUses_id]
  · rw [Body.block_replaceUses _ hne, h.others c hc, Block.mapUses_id]

theorem replaces_replaceCall (s : Setting) (index : Nat) (kind : InvokeKind) (m : Method)
    (hb : b < p.body.blockCount)
    (hcopy : copy p.body callee straight args = (body', some (ops, returned)))
    (hne : ∀ d u, dest = some d → returned = some u → u ≠ d) :
    ∃ r : Operand → Operand, (∀ v, dest ≠ some v → r v = v) ∧
      (∀ d u, dest = some d → returned = some u → r d = u) ∧
      Replaces p.body (replaceCall s p b index kind args dest m callee straight).1.body r b index
        (receiverCheck p.body s.caller m kind args ++ ops) ∧
      (replaceCall s p b index kind args dest m callee straight).1.body.valueCount =
        body'.valueCount ∧
      (replaceCall s p b index kind args dest m callee straight).2 =
        (receiverCheck p.body s.caller m kind args ++ ops).length := by
  obtain ⟨values, rfl, -⟩ := copy_keeps hcopy
  have hplain : ∀ inlined : List Op, Replaces p.body
      (Body.modifyBlock { p.body with values } b fun block => { block with
        ops := block.ops.take index ++ inlined ++ block.ops.drop (index + 1) }) id b
          index inlined := by
    intro inlined
    refine ⟨Body.blockCount_modifyBlock .., ?_, fun c hc => ?_⟩
    · rw [Body.block_modifyBlock, if_pos ⟨rfl, hb⟩, Block.mapUses_id]
      rfl
    · rw [Body.block_modifyBlock, if_neg fun h => hc h.1.symm, Block.mapUses_id]
      rfl
  rw [replaceCall, hcopy]
  cases dest with
  | none => exact ⟨id, fun _ _ => rfl, fun d u hd => (by cases hd), hplain _, rfl, rfl⟩
  | some d =>
    cases returned with
    | none => exact ⟨id, fun _ _ => rfl, fun d u _ hu => (by cases hu), hplain _, rfl, rfl⟩
    | some u =>
      refine ⟨fun v => if v = d then u else v, fun v hv => ?_, fun d' u' hd hu => ?_,
        (hplain _).replaceUses (hne d u rfl rfl), rfl, rfl⟩
      · exact if_neg fun hvd : v = d => hv (congrArg some hvd.symm)
      · grind

theorem Replaces.spliced {body : Body} {r : Operand → Operand} {inlined : List Op} {call : Op}
    (h : Replaces body body' r b index inlined) (hchecked : body.Checked)
    (hop : (body.block b).ops[index]? = some call)
    (hhandlers : (body.block b).handlers = []) (hcall : call.isPlain = true)
    (hplain : ∀ op ∈ inlined, op.isPlain = true) (hfixed : ∀ op ∈ inlined, ∀ v ∈ op.uses, r v = v) :
    Body.Spliced body body' r b ((body.block b).ops.take index) [call] inlined
      ((body.block b).ops.drop (index + 1)) := by
  have hlt := (List.getElem?_eq_some_iff.1 hop).1
  have hsplit : (body.block b).ops =
      (body.block b).ops.take index ++ ([call] ++ (body.block b).ops.drop (index + 1)) := by
    have hdrop := List.drop_eq_getElem_cons hlt
    rw [(List.getElem?_eq_some_iff.1 hop).2] at hdrop
    rw [List.singleton_append, ← hdrop, List.take_append_drop]
  have hkept : inlined.map (Op.mapUses r) = inlined :=
    (List.map_congr_left fun op hmem => Op.mapUses_of_fixed (hfixed op hmem)).trans (List.map_id _)
  have hsame : ∀ c, ∃ ops, body'.block c = Block.mapUses { body.block c with ops } r := fun c => by
    by_cases hc : c = b
    · exact ⟨_, hc ▸ h.here⟩
    · exact ⟨_, h.others c hc⟩
  constructor
  case count => exact h.count
  case inside => exact Body.lt_blockCount_of_getElem? hop
  case ops => exact hsplit
  case ops' =>
    rw [h.here]
    simp [Block.mapUses, hkept]
  case others =>
    intro c hc
    rw [h.others c hc]
    rfl
  case phis | preds | handlers =>
    intro c
    obtain ⟨ops, hblock⟩ := hsame c
    rw [hblock]
    rfl
  case quiet => exact .inl hhandlers
  case post_ne => exact hchecked.post_ne hsplit (by simp) (by simpa using hcall)
  case plain =>
    intro op hmem
    rcases List.mem_append.1 hmem with hmem | hmem
    · rwa [List.mem_singleton.1 hmem]
    · exact hplain op hmem

/-! ## The call that is replaced -/

structure Site (p : Progress) (b : BlockId) (index : Nat) (kind : InvokeKind) (method : MethodId)
    (args : List Operand) (dest : Option Operand) (m : Method) (callee : Body)
    (straight : StraightBody)
    (body' : Body) (ops : List Op) (returned : Option Operand) : Prop where
  checked : p.body.Checked
  handlers : (p.body.block b).handlers = []
  call : (p.body.block b).ops[index]? = some (.invoke kind method args dest)
  lifted : lift? m = .ok (some callee)
  linear : straight? callee = some straight
  copy : copy p.body callee straight args = (body', some (ops, returned))
  gives : dest.isSome = true → returned.isSome = true

namespace Site

variable (h : Site p b index kind method args dest m callee straight body' ops returned)
include h

theorem dominated {v : Operand} (hv : v ∈ args) : p.body.Dominated b index v :=
  h.checked.use b (Body.lt_blockCount_of_getElem? h.call) index _ h.call v hv

theorem length_take : ((p.body.block b).ops.take index).length = index :=
  List.length_take_of_le (Nat.le_of_lt (List.getElem?_eq_some_iff.1 h.call).1)

theorem le : p.body.valueCount ≤ body'.valueCount := by
  obtain ⟨values, rfl, hle⟩ := copy_keeps h.copy
  exact hle

theorem copied : Copied callee p.body body' args ops returned :=
  copied_of_copy (lifted_of_lift? h.lifted) h.linear
    (fun _ hv => h.checked.defined_lt _ (h.dominated hv).mem_definedValues) h.copy

theorem new {v : Operand} (hv : v ∈ dests ops) :
    v < body'.valueCount ∧ v ∉ p.body.definedValues := by
  rw [h.copied.results, List.mem_range'_1, Nat.add_sub_cancel' h.le] at hv
  exact ⟨hv.2, fun hmem => Nat.not_lt_of_le hv.1 (h.checked.defined_lt v hmem)⟩

theorem definedAt {d : Operand} (hd : dest = some d) : p.body.DefinedAt d (.op b index) :=
  ⟨Body.lt_blockCount_of_getElem? h.call, _, h.call, hd⟩

theorem ne_dest {v d : Operand} (hv : v ∈ args ∨ v ∈ dests ops) (hd : dest = some d) : v ≠ d := by
  rintro rfl
  rcases hv with hv | hv
  · obtain ⟨site, hsite, hbefore⟩ := h.dominated hv
    cases h.checked.site_unique hsite (h.definedAt hd)
    simp [Body.isDefinedBefore] at hbefore
  · exact (h.new hv).2 (Body.mem_definedValues_of_definedAt (h.definedAt hd))

theorem reads (caller : Method) {j : Nat} {op : Op}
    (hop : (receiverCheck p.body caller m kind args ++ ops)[j]? = some op) {v : Operand}
    (hv : v ∈ op.uses) :
    v ∈ dests ((receiverCheck p.body caller m kind args ++ ops).take j) ∨ v ∈ args := by
  rw [← guards_trustingCallee kind m caller callee] at hop ⊢
  rcases Callee.guards_cases _ args with ⟨-, hguards⟩ | ⟨receiver, hmem, -, hguards⟩
  · rw [hguards] at hop ⊢
    exact h.copied.reads j op hop v hv
  · rw [hguards] at hop ⊢
    cases j with
    | zero =>
      obtain rfl := Option.some.inj hop
      obtain rfl := List.mem_singleton.1 hv
      exact .inr hmem
    | succ j => exact h.copied.reads j op hop v hv

theorem plain (caller : Method) :
    ∀ op ∈ receiverCheck p.body caller m kind args ++ ops, op.isPlain = true := by
  rw [← guards_trustingCallee kind m caller callee, List.forall_mem_append]
  refine ⟨fun op hop => ?_, h.copied.plain⟩
  obtain ⟨v, -, rfl⟩ := List.mem_map.1 hop
  rfl

/-- The body that has the copy in place of the call passes the check, and its behaviour is that of
the body with the call, which runs the callee. -/
theorem expands : ∃ r,
    Body.Expands p.body (replaceCall s p b index kind args dest m callee straight).1.body r b
      ((p.body.block b).ops.take index) (.invoke kind method args dest) ops
      ((p.body.block b).ops.drop (index + 1)) (trustingCallee kind m s.caller callee p.body args)
        returned
      True ∧
    (replaceCall s p b index kind args dest m callee straight).1.body.Checked ∧
    (replaceCall s p b index kind args dest m callee straight).2 =
      ((trustingCallee kind m s.caller callee p.body args).guards args ++ ops).length := by
  have hcopied := h.copied
  have hlength := h.length_take
  have hinlined : dests (receiverCheck p.body s.caller m kind args ++ ops) = dests ops := by
    rw [dests_append, dests_receiverCheck, List.nil_append]
  have hgives : ∀ d u, dest = some d → returned = some u → u ≠ d := fun d u hd hu =>
    h.ne_dest (hcopied.gives u hu).symm hd
  obtain ⟨r, hkeeps, hresult, hreplaces, hvalues, hwidth⟩ :=
    replaces_replaceCall s index kind m (Body.lt_blockCount_of_getElem? h.call) h.copy hgives
  have hfixed : ∀ op ∈ receiverCheck p.body s.caller m kind args ++ ops,
      ∀ v ∈ op.uses, r v = v := by
    intro op hop v hv
    obtain ⟨j, hj⟩ := List.mem_iff_getElem?.1 hop
    refine hkeeps v fun hd => ?_
    rcases h.reads s.caller hj hv with hnew | harg
    · obtain ⟨op', hop', hdest⟩ := mem_dests.1 hnew
      have hmem : v ∈ dests ops := by
        rw [← hinlined, mem_dests]
        exact ⟨op', List.mem_of_mem_take hop', hdest⟩
      exact h.ne_dest (.inr hmem) hd rfl
    · exact h.ne_dest (.inl harg) hd rfl
  have hspliced := hreplaces.spliced h.checked h.call h.handlers rfl (h.plain s.caller) hfixed
  -- what is read of the result is there: the callee returns a value of its own or an argument
  have hresults : ∀ d, dest = some d → returned = some (r d) ∧
      (r d ∈ dests ops ∨ p.body.Dominated b ((p.body.block b).ops.take index).length (r d)) := by
    intro d hd
    obtain ⟨u, hu⟩ := Option.isSome_iff_exists.1 (h.gives (by rw [hd]; rfl))
    rw [hresult d u hd hu, hlength]
    exact ⟨hu, (hcopied.gives u hu).imp_right h.dominated⟩
  have hsuits :
      Body.Suits p.body (replaceCall s p b index kind args dest m callee straight).1.body r b
      ((p.body.block b).ops.take index) [.invoke kind method args dest]
      (receiverCheck p.body s.caller m kind args ++ ops) := by
    constructor
    case place => exact ⟨_, hlength ▸ h.call, rfl, rfl⟩
    case values => exact hvalues ▸ h.le
    case nodup =>
      rw [hinlined, hcopied.results]
      exact List.nodup_range' ..
    case new =>
      intro v hv
      rw [hinlined] at hv
      rw [hvalues]
      exact (h.new hv).imp_right .inr
    case reads =>
      intro j op hop v hv
      rw [hlength]
      exact (h.reads s.caller hop hv).imp_right h.dominated
    case keeps =>
      exact fun v hv => hkeeps v fun hd => hv (mem_dests.2 ⟨_, List.mem_singleton_self _, hd⟩)
    case replaces =>
      intro v hv _
      obtain ⟨op, hop, hd⟩ := mem_dests.1 hv
      rw [List.mem_singleton.1 hop] at hd
      rw [hinlined]
      exact (hresults v hd).2
  refine ⟨r, ?_, hspliced.checked hsuits h.checked, ?_⟩
  · constructor
    case spliced =>
      rw [show Op.uses (.invoke kind method args dest) = args from rfl, guards_trustingCallee]
      exact hspliced
    case no_handlers => exact h.handlers
    case checked => exact h.checked
    case new => exact fun v hv => .inr (h.new hv).2
    case keeps => exact hkeeps
    case result => exact hresults
    case mirrors => exact hcopied.mirrors
  · rw [hwidth, guards_trustingCallee]

end Site

end Pass.Inlining

end BytecodeOpt
