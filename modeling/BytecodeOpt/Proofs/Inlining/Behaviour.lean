import BytecodeOpt.Proofs.Inlining.Replacement
import BytecodeOpt.Proofs.Program.Hierarchy

/-!
# Inlining keeps the effects

Calls are replaced one after the other.  Each replacement leaves the effects of a run as they were,
if the call ran the body of its callee, and so do all of them together.
-/

namespace BytecodeOpt

open Execution Ssa

theorem Op.exists_invoke_of_mapUses {f : Operand → Operand} {op : Op} {kind : InvokeKind}
    {method : MethodId} {args : List Operand} {dest : Option Operand}
    (h : op.mapUses f = .invoke kind method args dest) :
    ∃ args', op = .invoke kind method args' dest := by
  cases op with
  | invoke kind' method' args' dest' =>
    rw [mapUses] at h
    cases h
    exact ⟨args', rfl⟩
  | _ => cases h

/-! ## What methods return -/

def Method.ReturnsAsDeclared (m : Method) : Prop :=
  ∀ code value, m.code = some code → .ret value ∈ code.instructions →
    (value.isSome = true ↔ m.id.proto.returnType ≠ .void)

namespace Ssa

open Lift

/-- Each operation of lifted code, apart from arguments and jumps, is what an instruction of the
code renders. -/
theorem exists_renders_of_lift? {m : Method} {body : Body} {c : BlockId} {op : Op}
    (h : lift? m = .ok (some body)) (hmem : op ∈ (body.block c).ops)
    (hargument : op.isArgument = false) (hjump : ∀ t, op ≠ .goto t) :
    ∃ code src i old holds index f, m.code = some code ∧ i ∈ code.instructions ∧
      Renders src holds index i old ∧ old.mapUses f = op := by
  obtain ⟨code, hcode, hlift⟩ := liftCode_of_lift? h
  obtain ⟨layout, done, hsound, hcomplete, hremove, -⟩ := complete_of_liftCode hlift
  have hwf := hcomplete.wellFormed hsound
  obtain ⟨r, htrivial, -, rfl⟩ := removeTrivialPhis_eq_ok (nodup_phiDests hwf.defined_nodup) hremove
  rw [Body.block_rewrite, Block.rewrite] at hmem
  obtain ⟨old, hop, rfl⟩ := List.mem_map.1 hmem
  have hlt : c < layout.blocks.size := hcomplete.blockCount ▸ Body.lt_blockCount_of_mem_ops hop
  have htranslated : ∀ {ops : List Op} {st : BlockState} {f f' : Frame} {index : Nat},
      Translates ⟨code, layout⟩ c st index f (instructionsOf ⟨code, layout⟩ c) ops f' → old ∈ ops →
      ∃ src, ∃ i ∈ code.instructions, ∃ holds index, Renders src holds index i old := by
    intro ops st f f' index htranslates hmem
    obtain ⟨i, hi, hrenders⟩ := htranslates.exists_renders _ hmem
    exact ⟨_, i, List.mem_of_mem_drop (List.mem_of_mem_take hi), hrenders⟩
  have hold : ∃ src, ∃ i ∈ code.instructions, ∃ holds index, Renders src holds index i old := by
    have hshape := (hcomplete.block c hlt).shape
    generalize (done.body.block c).ops = ops at hshape hop
    cases hshape with
    | entry _ _ _ =>
      rcases List.mem_append.1 hop with hop | hop
      · obtain ⟨_, -, rfl⟩ := List.mem_map.1 hop
        cases hargument
      · obtain rfl := List.mem_singleton.1 hop
        exact absurd rfl (hjump _)
    | leaves _ htranslates _ => exact htranslated htranslates hop
    | falls _ htranslates _ _ =>
      rcases List.mem_append.1 hop with hop | hop
      · exact htranslated htranslates hop
      · obtain rfl := List.mem_singleton.1 hop
        exact absurd rfl (hjump _)
  obtain ⟨src, i, hi, holds, index, hrenders⟩ := hold
  exact ⟨code, src, i, old, holds, index, _, hcode, hi, hrenders, rfl⟩

theorem exists_ret_of_lift? {m : Method} {body : Body} {c : BlockId} {value : Option Operand}
    (h : lift? m = .ok (some body)) (hret : .ret value ∈ (body.block c).ops) :
    ∃ code reg, m.code = some code ∧ .ret reg ∈ code.instructions ∧ reg.isSome = value.isSome := by
  obtain ⟨code, src, i, op, holds, index, f, hcode, hi, hrenders, hmap⟩ :=
    exists_renders_of_lift? h hret rfl (by simp)
  obtain ⟨old, rfl⟩ : ∃ old, op = .ret old := by
    cases op with
    | ret old => exact ⟨old, rfl⟩
    | _ => cases hmap
  unfold Renders at hrenders
  cases i with
  | ret reg =>
    cases hrenders with
    | ret hvalue =>
      have hlength := hvalue.length_eq
      rw [Op.mapUses, Op.ret.injEq] at hmap
      refine ⟨code, reg, hcode, hi, ?_⟩
      subst hmap
      cases reg <;> cases old <;> simp_all
  | _ => cases hrenders

end Ssa

namespace Pass.Inlining

variable {s : Setting} {p : Progress} {b : BlockId} {index : Nat} {kind : InvokeKind}
  {method : MethodId} {args : List Operand} {dest returned : Option Operand} {m : Method}
  {body callee body' final : Body} {straight : StraightBody} {ops : List Op} {blocks : List BlockId}

theorem exists_ret_of_straightFrom? {n : Nat} (h : straightFrom? callee n b = some straight) :
    ∃ c, .ret straight.returned ∈ (callee.block c).ops := by
  have hret : ∀ {rest ops : List Op} {value : Option Operand},
      straightOps rest = (ops, .return value) → .ret value ∈ rest := by
    intro rest ops value hops
    fun_induction straightOps rest generalizing ops with
    | case1 | case2 | case5 | case6 => cases hops
    | case3 => grind
    | case4 number rest ih => exact List.mem_cons_of_mem _ (ih hops)
    | case7 op rest _ _ _ _ _ ops exit hrest ih => grind
  fun_induction straightFrom? callee n b generalizing straight with
  | case1 | case4 | case5 => cases h
  | case2 blocks b _ hempty ops target hops =>
    rename_i ih
    obtain ⟨rest, hrest, rfl⟩ := Option.map_eq_some_iff.1 h
    obtain ⟨c, hc⟩ := ih hrest
    exact ⟨c, hc⟩
  | case3 blocks b _ hempty ops value => grind

theorem of_callee? (h : callee? s kind method = some m) :
    s.program.singleTarget? kind method = some m.id ∧ s.program.method? m.id = some m := by
  obtain ⟨target, htarget, h⟩ := Option.bind_eq_some_iff.1 h
  obtain ⟨found, hfound, h⟩ := Option.bind_eq_some_iff.1 h
  obtain ⟨_, -, h⟩ := Option.bind_eq_some_iff.1 h
  obtain rfl := Option.some.inj h
  have hid := Program.id_of_method? hfound
  exact ⟨hid ▸ htarget, hid ▸ hfound⟩

theorem proto_of_callee? (h : callee? s kind method = some m) : m.id.proto = method.proto := by
  obtain ⟨found, hfound, hid, -⟩ := Program.exists_of_singleTarget? (of_callee? h).1
  rw [← hid, Program.id_of_method? (Program.defined_of_lookupFrom hfound).1]
  rfl

theorem isSome_returned (hcallee : callee? s kind method = some m) (hreturns : m.ReturnsAsDeclared)
    (hvoid : method.proto.returnType ≠ .void) (hlift : lift? m = .ok (some callee))
    (hstraight : straight? callee = some straight)
    (hcopy : copy body callee straight args = (body', some (ops, returned))) :
    returned.isSome = true := by
  obtain ⟨c, hret⟩ := exists_ret_of_straightFrom? hstraight
  obtain ⟨code, reg, hcode, hmem, hreg⟩ := exists_ret_of_lift? hlift hret
  rw [isSome_of_copy hcopy, ← hreg, hreturns code reg hcode hmem, proto_of_callee? hcallee]
  exact hvoid

/-! ## One call after the other -/

/-- The places still to be looked at: a block from an index on, and more blocks. -/
def Ahead (b : BlockId) (index : Nat) (blocks : List BlockId) (c : BlockId) (k : Nat) : Prop :=
  (c = b ∧ index ≤ k) ∨ c ∈ blocks

def ResultsDeclared (body : Body) (region : BlockId → Nat → Prop) : Prop :=
  ∀ c k kind method args d, region c k →
    (body.block c).ops[k]? = some (.invoke kind method args (some d)) →
      method.proto.returnType ≠ .void

def RunsCallees (s : Setting) (body : Body)
    (calls : BlockId × Nat → Option (Callee (BlockId × Nat))) :
    Prop :=
  ∀ c k code, calls (c, k) = some code → ∃ kind method args dest m callee,
    (body.block c).ops[k]? = some (.invoke kind method args dest) ∧ callee? s kind method = some m ∧
      lift? m = .ok (some callee) ∧ code = calleeOf kind m callee

/-- What is asked of a host and a start: the check of null is one, and the receiver is not null.
What values hold before they are defined counts as something. -/
structure Admits (s : Setting) {V W : Type} (host : Host V W) (isNull : V → Prop) (args : Nat → V)
    (m : Memory V) : Prop where
  host : host.ChecksNull isNull
  receiver : s.caller.flags.isStatic = false → ¬ isNull (args 0)
  start : ∀ v, ¬ isNull (m.store v)

/-- With calls in a region that run their callees a body has the effects of another that runs
none. -/
def Unfolds (s : Setting) (body : Body) (region : BlockId → Nat → Prop) (final : Body) : Prop :=
  ∃ calls, RunsCallees s body calls ∧ (∀ c k, calls (c, k) ≠ none → region c k) ∧
    ∀ (V W : Type) (host : Host V W) (isNull : V → Prop) (args : Nat → V) (blank : V) (w : W)
      (m : Memory V), Admits s host isNull args m →
      SameBehaviour ((body.routine.CallStep calls host args blank).showing Observation.isEffect)
        ((final.routine.Step host args).showing Observation.isEffect)
        (some (.caller ⟨(0, 0), w, m⟩)) (some ⟨(0, 0), w, m⟩)

theorem Unfolds.mono {region region' : BlockId → Nat → Prop} (h : Unfolds s body region final)
    (hsub : ∀ c k, region c k → region' c k) : Unfolds s body region' final := by
  obtain ⟨calls, hruns, hregion, hsame⟩ := h
  exact ⟨calls, hruns, fun c k hne => hsub c k (hregion c k hne), hsame⟩

theorem Unfolds.refl (s : Setting) (body : Body) : Unfolds s body (fun _ _ => False) body := by
  refine ⟨fun _ => none, fun c k code hcode => (by cases hcode), fun c k hne => hne rfl, ?_⟩
  intro V W host isNull args blank w m _
  exact (sameBehaviour_callStep_showing body.routine host args blank _ _).symm

section Replaced

variable {r : Operand → Operand} {post : List Op} {pre : List Op}

theorem ahead_of_position
    (h : Body.Spliced body body' r b pre [.invoke kind method args dest] ops post) {c : BlockId}
    {k : Nat} (hne : (c, k) ≠ (b, pre.length))
    (hahead : Ahead b (pre.length + ops.length) blocks c (h.position c k)) :
    Ahead b (pre.length + 1) blocks c k := by
  rcases hahead with ⟨rfl, hle⟩ | hmem
  · refine .inl ⟨rfl, ?_⟩
    rw [h.position_self, shifted, List.length_singleton] at hle
    split at hle
    · assumption
    · grind
  · exact .inr hmem

/-- The calls of a body of which one is replaced: that one runs its callee, and the others run what
they run afterwards. -/
def callsBefore (h : Body.Spliced body body' r b pre [.invoke kind method args dest] ops post)
    (code : Callee (BlockId × Nat)) (calls : BlockId × Nat → Option (Callee (BlockId × Nat)))
    (l : BlockId × Nat) : Option (Callee (BlockId × Nat)) :=
  if l = (b, pre.length) then some code else calls (l.1, h.position l.1 l.2)

theorem runsCallees_callsBefore
    (h : Body.Spliced body body' r b pre [.invoke kind method args dest] ops post)
    (hcallee : callee? s kind method = some m) (hlift : lift? m = .ok (some callee))
    {calls : BlockId × Nat → Option (Callee (BlockId × Nat))} (hruns : RunsCallees s body' calls) :
    RunsCallees s body (callsBefore h (calleeOf kind m callee) calls) := by
  intro c k code hcode
  rw [callsBefore] at hcode
  split at hcode
  · rename_i heq
    cases heq
    have hop : (body.block b).ops[pre.length]? = some (.invoke kind method args dest) := by
      simp [h.ops]
    exact ⟨kind, method, args, dest, m, callee, hop, hcallee, hlift, (Option.some.inj hcode).symm⟩
  · rename_i hne
    obtain ⟨kind', method', args', dest', m', callee', hop, hrest⟩ := hruns _ _ code hcode
    have houtside : c = b → k < pre.length ∨
        pre.length + [Op.invoke kind method args dest].length ≤ k := by grind
    rw [h.getElem?_position houtside, Option.map_eq_some_iff] at hop
    obtain ⟨old, hold, hmap⟩ := hop
    obtain ⟨args'', rfl⟩ := Op.exists_invoke_of_mapUses hmap
    exact ⟨kind', method', args'', dest', m', callee', hold, hrest⟩

end Replaced

theorem trustingCallee_cases (hchecked : body.Checked) (kind : InvokeKind) (m caller : Method)
    (callee : Body) (args : List Operand) :
    trustingCallee kind m caller callee body args = calleeOf kind m callee ∨
      ∃ v given, args = v :: given ∧ body.NeverNull (!caller.flags.isStatic) v := by
  cases args with
  | nil =>
    refine .inl ?_
    rw [trustingCallee, List.head?_nil, Option.all_none, Bool.and_true]
  | cons v given =>
    cases hnull : mayBeNull body caller v with
    | true =>
      refine .inl ?_
      rw [trustingCallee, List.head?_cons, Option.all_some, hnull, Bool.and_true]
    | false => exact .inr ⟨v, given, rfl, neverNull_of_mayBeNull hchecked hnull⟩

theorem callAt_of_runsCallees {calls : BlockId × Nat → Option (Callee (BlockId × Nat))}
    (h : RunsCallees s body calls) (l : BlockId × Nat) (hl : calls l ≠ none) : body.CallAt l := by
  obtain ⟨code, hcode⟩ := Option.ne_none_iff_exists'.1 hl
  obtain ⟨kind, method, args, dest, -, -, hop, -⟩ := h l.1 l.2 code hcode
  exact ⟨kind, method, args, dest, hop⟩

/-- Where the body with the copy in place of a call unfolds, so does the body with the call. -/
theorem Site.unfolds (h : Site p b index kind method args dest m callee straight body' ops returned)
    (hcallee : callee? s kind method = some m) (hb : b ∉ blocks)
    (hrest : Unfolds s (replaceCall s p b index kind args dest m callee straight).1.body
      (Ahead b (index + (replaceCall s p b index kind args dest m callee straight).2) blocks)
        final) :
    Unfolds s p.body (Ahead b index blocks) final := by
  obtain ⟨r, hexpands, -, hwidth⟩ := h.expands (s := s)
  obtain ⟨calls, hruns, hregion, hsame⟩ := hrest
  have hlength := h.length_take
  rw [hwidth, ← hlength] at hregion
  have hspliced := hexpands.spliced
  have hbefore := runsCallees_callsBefore hspliced hcallee h.lifted hruns
  have hat : ∀ code l, callsBefore hspliced code calls l ≠ none → p.body.CallAt l := by
    intro code l hl
    by_cases heq : l = (b, ((p.body.block b).ops.take index).length)
    · subst heq
      exact ⟨kind, method, args, dest, hexpands.call_at⟩
    · refine callAt_of_runsCallees hbefore l ?_
      rw [callsBefore, if_neg heq] at hl ⊢
      exact hl
  refine ⟨_, hbefore, fun c k hne => ?_, fun V W host isNull values blank w memory hadmits => ?_⟩
  · by_cases heq : (c, k) = (b, ((p.body.block b).ops.take index).length)
    · cases heq
      exact .inl ⟨rfl, Nat.le_of_eq hlength.symm⟩
    · rw [callsBefore, if_neg heq] at hne
      refine (ahead_of_position hspliced heq (hregion _ _ hne)).imp_left fun ⟨hc, hle⟩ => ⟨hc, ?_⟩
      omega
  · have htrusts : p.body.Trusts (!s.caller.flags.isStatic)
        (callsBefore hspliced (calleeOf kind m callee) calls)
        (callsBefore hspliced (trustingCallee kind m s.caller callee p.body args) calls) := by
      intro l
      by_cases heq : l = (b, ((p.body.block b).ops.take index).length)
      · rw [callsBefore, if_pos heq, callsBefore, if_pos heq]
        rcases trustingCallee_cases h.checked kind m s.caller callee args with
          hsame | ⟨v, given, rfl, hv⟩
        · exact .inl (congrArg some hsame)
        · refine .inr ⟨_, _, kind, method, v, given, dest, rfl, rfl, ?_, hv⟩
          rw [heq]
          exact hexpands.call_at
      · rw [callsBefore, if_neg heq, callsBefore, if_neg heq]
        exact .inl rfl
    have hcalls : Body.SameCalls hexpands
        (callsBefore hspliced (trustingCallee kind m s.caller callee p.body args) calls) calls := by
      constructor
      case here => exact if_pos rfl
      case others => exact fun c k hne => (if_neg hne).symm
      case inside =>
        intro j hj
        by_contra hne
        rcases hregion _ _ hne with ⟨-, hle⟩ | hmem
        · exact absurd hj (Nat.not_lt_of_le (Nat.le_of_add_le_add_left hle))
        · exact hb hmem
      case throws =>
        intro c k op hne hop
        obtain ⟨_, _, _, _, hop'⟩ := hat _ _ hne
        obtain rfl := Option.some.inj (hop.symm.trans hop')
        rfl
    have hquiet : p.body.QuietCaller (K := BlockId × Nat) (!s.caller.flags.isStatic) isNull
        (some (.caller ⟨(0, 0), w, memory⟩)) := fun v _ => hadmits.start v
    have hreceiver : (!s.caller.flags.isStatic) = true → ¬ isNull (values 0) := fun hinstance =>
      hadmits.receiver (by simpa using hinstance)
    exact (htrusts.sameBehaviour (callAt_of_runsCallees hbefore) hadmits.host
      hreceiver hquiet).trans
      ((hexpands.sameBehaviour hcalls (fun _ _ => rfl) host values blank w memory).trans
        (hsame V W host isNull values blank w memory hadmits))

/-- From an index of a block on, and in more blocks, only calls of methods that return something
have a result, and the block has no handlers. -/
structure Ready (body : Body) (b : BlockId) (index : Nat) (blocks : List BlockId) : Prop where
  checked : body.Checked
  handlers : (body.block b).handlers = []
  declared : ResultsDeclared body (Ahead b index blocks)

/-- The pass goes on from one index to another: the body is still as it should be, and what it
unfolds to later it does now. -/
structure Advances (s : Setting) (blocks : List BlockId) (b : BlockId) (body body' : Body)
    (index index' : Nat) : Prop where
  ready : Ready body' b index' blocks
  handlers : ∀ c, (body'.block c).handlers = (body.block c).handlers
  unfolds : ∀ final, Unfolds s body' (Ahead b index' blocks) final →
    Unfolds s body (Ahead b index blocks) final

theorem Ahead.mono {index' c k : Nat} (hle : index ≤ index') (h : Ahead b index' blocks c k) :
    Ahead b index blocks c k :=
  h.imp_left fun ⟨hc, hk⟩ => ⟨hc, Nat.le_trans hle hk⟩

theorem Advances.trans {body'' : Body} {index' index'' : Nat}
    (h : Advances s blocks b body body' index index')
    (h' : Advances s blocks b body' body'' index' index'') :
    Advances s blocks b body body'' index index'' :=
  ⟨h'.ready, fun c => (h'.handlers c).trans (h.handlers c), fun final hfinal =>
    h.unfolds final (h'.unfolds final hfinal)⟩

theorem Ready.advances (h : Ready body b index blocks) {values : Array ValueType}
    (hvalues : body.values.size ≤ values.size) {index' : Nat} (hle : index ≤ index') :
    Advances s blocks b body { body with values } index index' := by
  refine ⟨⟨h.checked.withValues hvalues, h.handlers, fun c k kind method args d hahead hop => ?_⟩,
    fun _ => rfl, fun final hfinal => ?_⟩
  · exact h.declared c k kind method args d (hahead.mono hle) hop
  · have hsame : Unfolds s body (Ahead b index' blocks) final := hfinal
    exact hsame.mono fun c k => Ahead.mono hle

theorem Site.advances
    (h : Site p b index kind method args dest m callee straight body' ops returned)
    (hdeclared : ResultsDeclared p.body (Ahead b index blocks))
    (hcallee : callee? s kind method = some m) (hb : b ∉ blocks) :
    Advances s blocks b p.body (replaceCall s p b index kind args dest m callee straight).1.body
      index
      (index + (replaceCall s p b index kind args dest m callee straight).2) := by
  obtain ⟨r, hexpands, hchecked, hwidth⟩ := h.expands (s := s)
  have hspliced := hexpands.spliced
  refine ⟨⟨hchecked, ?_, fun c k kind' method' args' d hahead hop => ?_⟩, hspliced.handlers,
    fun final => h.unfolds hcallee hb⟩
  · rw [hspliced.handlers, h.handlers]
  · have hlength := h.length_take
    rw [hwidth, ← hlength] at hahead
    rcases hspliced.cases_getElem? hop with ⟨i, old, houtside, hold, rfl, hmap⟩ | ⟨rfl, j, hj, rfl⟩
    · obtain ⟨args'', rfl⟩ := Op.exists_invoke_of_mapUses hmap.symm
      have hne : (c, i) ≠ (b, ((p.body.block b).ops.take index).length) := by grind
      refine hdeclared c i kind' method' args'' d ?_ hold
      exact (ahead_of_position hspliced hne hahead).mono (by omega)
    · have hlt := (List.getElem?_eq_some_iff.1 hj).1
      rcases hahead with ⟨-, hle⟩ | hmem
      · exact absurd hlt (Nat.not_lt_of_le (Nat.le_of_add_le_add_left hle))
      · exact absurd hmem hb

/-! ## The pass -/

theorem body_wait (s : Setting) (p : Progress) (index : Nat) (target : MethodId) :
    (wait s p index target).body = p.body := by
  unfold wait
  split <;> rfl

section Pass

variable (hreturns : ∀ id m, s.program.method? id = some m → m.ReturnsAsDeclared)
include hreturns

theorem advances_replaceCall (h : Ready p.body b index blocks) (hb : b ∉ blocks)
    (hop : (p.body.block b).ops[index]? = some (.invoke kind method args dest))
    (hcallee : callee? s kind method = some m) (hlift : lift? m = .ok (some callee))
    (hstraight : straight? callee = some straight) :
    Advances s blocks b p.body (replaceCall s p b index kind args dest m callee straight).1.body
      index
      (index + (replaceCall s p b index kind args dest m callee straight).2) := by
  cases hcopy : copy p.body callee straight args with
  | mk body' result =>
    cases result with
    | none =>
      rw [replaceCall, hcopy]
      obtain ⟨values, rfl, hvalues⟩ := copy_keeps hcopy
      exact h.advances hvalues (Nat.le_succ index)
    | some result =>
      obtain ⟨ops, returned⟩ := result
      have hgives : dest.isSome = true → returned.isSome = true := by
        intro hdest
        obtain ⟨d, rfl⟩ := Option.isSome_iff_exists.1 hdest
        have hvoid := h.declared b index kind method args d (.inl ⟨rfl, Nat.le_refl _⟩) hop
        have hm := (of_callee? hcallee).2
        exact isSome_returned hcallee (hreturns _ m hm) hvoid hlift hstraight hcopy
      have hsite : Site p b index kind method args dest m callee straight body' ops returned :=
        ⟨h.checked, h.handlers, hop, hlift, hstraight, hcopy, hgives⟩
      exact hsite.advances h.declared hcallee hb

theorem advances_inlineAt (h : Ready p.body b index blocks) (hb : b ∉ blocks) :
    Advances s blocks b p.body (inlineAt s p b index).1.body index
      (index + (inlineAt s p b index).2) := by
  have hskip : Advances s blocks b p.body p.body index (index + 1) :=
    h.advances (Nat.le_refl _) (Nat.le_succ index)
  unfold inlineAt
  split
  · rename_i kind method args dest hop
    split
    · rename_i m hcallee
      unfold inlineCall
      split
      · rw [body_wait]
        exact hskip
      · split
        · exact hskip
        · split
          · exact hskip
          · exact hskip
          · rename_i callee hlift
            split
            · exact hskip
            · rename_i straight hstraight
              split
              · exact hskip
              · exact advances_replaceCall hreturns h hb hop hcallee hlift hstraight
    · exact hskip
  · exact hskip

theorem exists_advances_inlineFrom (count : Nat) (h : Ready p.body b index blocks)
    (hb : b ∉ blocks) :
    ∃ index', Advances s blocks b p.body (inlineFrom s b count index p).body index index' := by
  induction count generalizing index p with
  | zero => exact ⟨index, h.advances (Nat.le_refl _) (Nat.le_refl _)⟩
  | succ count ih =>
    rw [inlineFrom]
    split
    · exact ⟨index, h.advances (Nat.le_refl _) (Nat.le_refl _)⟩
    · have hfirst := advances_inlineAt hreturns h hb
      obtain ⟨index', hrest⟩ := ih hfirst.ready
      exact ⟨index', hfirst.trans hrest⟩

theorem unfolds_inlineBlocks (hblocks : blocks.Nodup) (hchecked : p.body.Checked)
    (hdeclared : ResultsDeclared p.body fun c _ => c ∈ blocks) :
    (blocks.foldl (inlineBlock s) p).body.Checked ∧
      Unfolds s p.body (fun c _ => c ∈ blocks) (blocks.foldl (inlineBlock s) p).body := by
  induction blocks generalizing p with
  | nil => exact ⟨hchecked, (Unfolds.refl s p.body).mono fun _ _ h => h.elim⟩
  | cons b blocks ih =>
    obtain ⟨hb, hblocks⟩ := List.nodup_cons.1 hblocks
    rw [List.foldl_cons, inlineBlock]
    split
    · rename_i hempty
      have hready : Ready p.body b 0 blocks := by
        refine ⟨hchecked, by simpa using hempty, fun c k kind method args d hahead => ?_⟩
        refine hdeclared c k kind method args d ?_
        rcases hahead with ⟨rfl, -⟩ | hmem
        · exact List.mem_cons_self
        · exact List.mem_cons_of_mem _ hmem
      obtain ⟨index', hadvances⟩ :=
        exists_advances_inlineFrom hreturns (p.body.block b).ops.length hready hb
      obtain ⟨hdone, hunfolds⟩ := ih hblocks hadvances.ready.checked
        fun c k kind method args d hc => hadvances.ready.declared c k kind method args d (.inr hc)
      refine ⟨hdone, (hadvances.unfolds _ (hunfolds.mono fun c k hc => .inr hc)).mono
        fun c k hahead => ?_⟩
      rcases hahead with ⟨rfl, -⟩ | hmem
      · exact List.mem_cons_self
      · exact List.mem_cons_of_mem _ hmem
    · obtain ⟨hdone, hunfolds⟩ := ih hblocks hchecked
        fun c k kind method args d hc =>
          hdeclared c k kind method args d (List.mem_cons_of_mem b hc)
      exact ⟨hdone, hunfolds.mono fun c _ hc => List.mem_cons_of_mem b hc⟩

end Pass

def FaultKnown (s : Setting) (p : Progress) : Prop :=
  ∀ id fault, p.fault = some (id, fault) → ∃ m, s.program.method? id = some m ∧
    lift? m = .error fault

theorem faultKnown_inlineAt (h : FaultKnown s p) (b : BlockId) (index : Nat) :
    FaultKnown s (inlineAt s p b index).1 := by
  have hwait : ∀ target, FaultKnown s (wait s p index target) := by
    intro target
    unfold wait
    split <;> exact h
  unfold inlineAt
  split
  · split
    · rename_i m hcallee
      unfold inlineCall
      split
      · exact hwait _
      · split
        · exact h
        · split
          · rename_i fault hlift
            intro id fault' heq
            cases heq
            exact ⟨m, (of_callee? hcallee).2, hlift⟩
          · exact h
          · split
            · exact h
            · split
              · exact h
              · unfold replaceCall
                split <;> exact h
    · exact h
  · exact h

theorem faultKnown_inlineFrom (count : Nat) (h : FaultKnown s p) (b : BlockId) (index : Nat) :
    FaultKnown s (inlineFrom s b count index p) := by
  induction count generalizing index p with
  | zero => exact h
  | succ count ih =>
    rw [inlineFrom]
    split
    · exact h
    · exact ih (faultKnown_inlineAt h b index) _

theorem faultKnown_inlineBlocks (blocks : List BlockId) (h : FaultKnown s p) :
    FaultKnown s (blocks.foldl (inlineBlock s) p) := by
  induction blocks generalizing p with
  | nil => exact h
  | cons b blocks ih =>
    refine ih ?_
    rw [inlineBlock]
    split
    · exact faultKnown_inlineFrom _ h b 0
    · exact h

def smallMethods : Program where
  classes := [{ type := ⟨"p.A"⟩, flags := {}, direct := [
    { id := note, flags := { isStatic := true }, code := some ⟨0, 0, [.ret none], []⟩
      processed := some .always, isSimple := true },
    { id := get, flags := {}, code := some ⟨1, 1, [.instanceGet 0 0 size, .ret (some 0)], []⟩
      processed := some .always, isSimple := true }] }]
where
  note : MethodId := ⟨⟨"p.A"⟩, "note", ⟨.void, []⟩⟩
  get : MethodId := ⟨⟨"p.A"⟩, "get", ⟨⟨"int"⟩, []⟩⟩
  size : FieldId := ⟨⟨"p.A"⟩, "size", ⟨"int"⟩⟩

def smallCaller : Setting where
  program := smallMethods
  caller :=
    { id := ⟨⟨"p.A"⟩, "f", ⟨⟨"int"⟩, [⟨"p.A"⟩]⟩⟩, flags := { isStatic := true }, code := none }
  inliner := .first {}

def asksArgument : Body := .ofBlocks smallCaller.caller.id [.reference, .int]
  [{ ops := [.argument 0 0, .invoke .virtual smallMethods.get [0] (some 1), .ret (some 1)] }]

def keepsNothing : Body := .ofBlocks smallCaller.caller.id [.int]
  [{ ops := [.invoke .static smallMethods.note [] (some 0), .ret (some 0)] }]

/-- Zero is null, on which checks and reads raise an exception; a field is one more than its
object. -/
def countingHost : Host Nat Unit where
  performs w action values outcome w' := w' = w ∧
    match action, values with
    | .nullCheck, [x] => outcome = if x = 0 then .raises 9 else .completes x
    | _, [x] => outcome = if x = 0 then .raises 9 else .completes (x + 1)
    | _, _ => outcome = .completes 1
  holds _ _ _ := false
  isKey _ _ := false
  isInstance _ _ := false

theorem checksNull_countingHost : countingHost.ChecksNull (· = 0) := by
  refine ⟨fun w x hx => ⟨x, ?_⟩, fun w x outcome w' hx h => ⟨rfl, x, ?_⟩, fun w type x w' h => ?_⟩
  · exact ⟨rfl, (if_neg hx).symm⟩
  · exact h.2.trans (if_neg hx)
  · cases h.2
    exact Nat.one_ne_zero

theorem returnsAsDeclared_smallMethods (id : MethodId) (m : Method)
    (h : smallMethods.method? id = some m) : m.ReturnsAsDeclared := by
  obtain ⟨c, hc, hm⟩ := Option.bind_eq_some_iff.1 h
  obtain rfl := List.mem_singleton.1 (List.mem_of_find?_eq_some hc)
  have hmem := List.mem_of_find?_eq_some hm
  simp only [Class.methods, List.append_nil, List.mem_cons, List.not_mem_nil, or_false] at hmem
  rcases hmem with rfl | rfl
  · intro code value hcode hret
    cases hcode
    obtain rfl : value = none := by simpa using hret
    decide
  · intro code value hcode hret
    cases hcode
    obtain rfl : value = some 0 := by simpa using hret
    decide

/-- A method that does not look at its receiver, and one whose code reads what it has not set. -/
def oddMethods : Program where
  classes := [{ type := ⟨"p.A"⟩, flags := {}, direct := [
    { id := one, flags := {}, code := some ⟨2, 1, [.const 0 (.int 1), .ret (some 0)], []⟩
      processed := some .always, isSimple := true },
    { id := unset, flags := { isStatic := true }, code := some ⟨1, 0, [.ret (some 0)], []⟩
      processed := some .always, isSimple := true }] }]
where
  one : MethodId := ⟨⟨"p.A"⟩, "one", ⟨⟨"int"⟩, []⟩⟩
  unset : MethodId := ⟨⟨"p.A"⟩, "unset", ⟨⟨"int"⟩, []⟩⟩

def oddCaller : Setting := { smallCaller with program := oddMethods }

/-- The handler of an allocation asks what has not been allocated. -/
def asksUnallocated : Body where
  method := smallCaller.caller.id
  blocks := #[
    { ops := [.newInstance 0 ⟨"p.A"⟩, .goto 1], handlers := [⟨none, 2⟩] },
    { ops := [.const 1 (.int 0), .ret (some 1)], preds := [0] },
    { ops := [.invoke .virtual oddMethods.one [0] (some 2), .ret (some 2)], preds := [0] }]
  values := #[.reference, .int, .int]

def readsUnset : Body := .ofBlocks smallCaller.caller.id [.int]
  [{ ops := [.invoke .static oddMethods.unset [] (some 0), .ret (some 0)] }]

end Pass.Inlining

end BytecodeOpt
