import BytecodeOpt.Proofs.RegisterCode.Layout

/-!
# Lowered code runs in step with the blocks

A jump to the block that follows is dropped, a result is picked up by an instruction of its own, a
branch may need a jump behind it, and a cast into another register copies first.  In between, the
code and the blocks agree on every register that may still be read.
-/

namespace BytecodeOpt.RegisterCode

open Execution

variable {code : RegisterCode} {firstWide : Option String} {raw : Code} {b : RegisterBlock}
  {post : List RegisterBlock} {k index : Nat} {i : Instruction} {op : Op} {t : BlockId}
  {operands : List Nat} {value dest : Nat} {action : Action} {type : TypeName}

/-! ## What an operation is lowered to -/

/-- The ways in which an effect is brought about by instructions.  Branch targets are still blocks,
`f` gives their indices. -/
inductive Lowers (next : Option BlockId) : Effect → List Instruction → Prop where
  | nothing : Lowers next .skip []
  | falls {t : BlockId} : next = some t → Lowers next (.goto t) []
  | alone {e : Effect} {i : Instruction} :
      (∀ f index, ((i.mapTargets f).effect index).dest? = e.dest? ∧
        e.Corresponds Eq (fun t t' => t' = f t) ((i.mapTargets f).effect index)) →
      Lowers next e [i]
  | picked {action : Action} {operands : List Nat} {dest : Nat} {i : Instruction} :
      (∀ f index, (i.mapTargets f).effect index = .act action operands none) →
      Lowers next (.act action operands (some dest)) [i, .moveResult dest]
  | cast {type : TypeName} {value dest : Nat} :
      Lowers next (.act (.checkCast type) [value] (some dest)) [.move dest value,
        .checkCast dest type]
  | decides {e : Effect} {i : Instruction} {default : BlockId} : e.leaves = true →
      default ∈ e.targets →
      (∀ f index, e.Corresponds Eq (fun t t' => t' = f t ∨ t = default ∧ t' = index + 1)
        ((i.mapTargets f).effect index)) →
      Lowers next e (i :: jumpUnlessNext next default)

theorem Lowers.act {next : Option BlockId} {dest : Option Nat}
    (h : ∀ f index, (i.mapTargets f).effect index = .act action operands dest) :
    Lowers next (.act action operands dest) [i] := by
  refine .alone fun f index => ?_
  rw [h]
  exact ⟨rfl, .act (List.forall₂_same.2 fun _ _ => rfl)⟩

theorem Lowers.call {next : Option BlockId}
    (h : ∀ f index, (i.mapTargets f).effect index = .act action operands none)
    (dest : Option Operand) :
    Lowers next (.act action operands (dest.map register)) (i :: resultOf dest) := by
  cases dest with
  | none => exact .act h
  | some d => exact .picked h

theorem lowers (firstWide : Option String) (next : Option BlockId) (op : Op) :
    Lowers next op.registerEffect.asCall (lowerOp firstWide next op) := by
  have hsame : ∀ os : List Nat, List.Forall₂ Eq os os := fun _ => List.forall₂_same.2 fun _ _ => rfl
  cases op with
  | argument dest index => exact .nothing
  | const dest value => cases value <;> exact .act fun _ _ => rfl
  | move dest source => exact .alone fun _ _ => ⟨rfl, .copy rfl⟩
  | moveException dest => exact .alone fun _ _ => ⟨rfl, .caught⟩
  | invoke kind method args dest => exact .call (fun _ _ => rfl) dest
  | invokeCustom site args dest => exact .call (fun _ _ => rfl) dest
  | filledNewArray dest type args => exact .call (fun _ _ => rfl) dest
  | checkCast dest value type =>
    rw [lowerOp]
    split
    · rename_i heq
      subst heq
      exact .act fun _ _ => rfl
    · exact .cast
  | line number => exact .alone fun _ _ => ⟨rfl, .line⟩
  | goto target =>
    rw [lowerOp, jumpUnlessNext]
    split
    · exact .falls ‹_›
    · exact .alone fun _ _ => ⟨rfl, .goto rfl⟩
  | branch cond left right onTrue onFalse =>
    refine .decides rfl (by simp [Op.targets]) fun f index => ?_
    exact .branch rfl (hsame _) (.inl rfl) (.inr ⟨rfl, rfl⟩)
  | switch value keys targets default =>
    refine .decides rfl (by simp [Op.targets]) fun f index => ?_
    exact .switch rfl (List.forall₂_map_right_iff.2 (List.forall₂_same.2 fun _ _ => .inl rfl))
      (.inr ⟨rfl, rfl⟩)
  | ret value => exact .alone fun _ _ => ⟨rfl, .ret (hsame _)⟩
  | _ => exact .act fun _ _ => rfl

/-! ## Places -/

/-- Control is before operation `k` of a block, with these blocks behind it, and before the
instruction at an index: the same is left to run. -/
structure Stands (code : RegisterCode) (firstWide : Option String) (b : RegisterBlock)
    (post : List RegisterBlock) (k index : Nat) : Prop where
  suffix : b :: post <:+ code.blocks
  lt : k < b.ops.length
  left : (inRow firstWide code.blocks).drop index =
    (b.ops.drop k).flatMap (lowerOp firstWide (next? post)) ++ inRow firstWide post

theorem length_inRow_le_of_suffix (firstWide : Option String) {blocks rest : List RegisterBlock}
    (h : rest <:+ blocks) :
    (inRow firstWide rest).length ≤ (inRow firstWide blocks).length := by
  induction blocks with
  | nil => rw [List.suffix_nil.1 h]
  | cons b tail ih =>
    rcases List.suffix_cons_iff.1 h with rfl | h
    · exact le_rfl
    · rw [inRow, List.length_append]
      exact (ih h).trans (Nat.le_add_left _ _)

theorem originIn_of_suffix {blocks : List RegisterBlock} (h : b :: post <:+ blocks)
    (hlt : (inRow firstWide post).length + index < (inRow firstWide blocks).length)
    (hle : (inRow firstWide blocks).length ≤ index + (inRow firstWide (b :: post)).length) :
    originIn firstWide blocks index = some b := by
  induction blocks generalizing index with
  | nil => simp at h
  | cons c rest ih =>
    rw [inRow, List.length_append] at hlt hle
    rw [originIn]
    rcases List.suffix_cons_iff.1 h with heq | h
    · grind
    · have hrest := length_inRow_le_of_suffix firstWide h
      rw [if_neg (by omega)]
      exact ih h (by omega) (by omega)

namespace Stands

theorem mem (h : Stands code firstWide b post k index) : b ∈ code.blocks :=
  h.suffix.subset List.mem_cons_self

variable (h : Stands code firstWide b post k index) (hop : b.ops[k]? = some op)
include h hop

theorem drop_eq : (inRow firstWide code.blocks).drop index = lowerOp firstWide (next? post) op ++
    ((b.ops.drop (k + 1)).flatMap (lowerOp firstWide (next? post)) ++ inRow firstWide post) := by
  obtain ⟨hlt, rfl⟩ := List.getElem?_eq_some_iff.1 hop
  rw [h.left, List.drop_eq_getElem_cons hlt, List.flatMap_cons, List.append_assoc]

theorem drop_behind :
    (inRow firstWide code.blocks).drop (index + (lowerOp firstWide (next? post) op).length) =
      (b.ops.drop (k + 1)).flatMap (lowerOp firstWide (next? post)) ++ inRow firstWide post := by
  rw [← List.drop_drop, h.drop_eq hop, List.drop_left]

theorem getElem?_lowerOp {j : Nat}
    (hj : (lowerOp firstWide (next? post) op)[j]? = some i) :
    (inRow firstWide code.blocks)[index + j]? = some i := by
  have hlt := (List.getElem?_eq_some_iff.1 hj).1
  rw [← List.getElem?_drop, h.drop_eq hop, List.getElem?_append_left hlt, hj]

theorem origin?_eq {j : Nat}
    (hj : j < (lowerOp firstWide (next? post) op).length) :
    code.origin? firstWide (index + j) = some b := by
  have hleft := congrArg List.length h.left
  have hlength := congrArg List.length (h.drop_eq hop)
  have hblock : lowerBlock firstWide post b =
      (b.ops.take k).flatMap (lowerOp firstWide (next? post)) ++
        (b.ops.drop k).flatMap (lowerOp firstWide (next? post)) := by
    rw [← List.flatMap_append, List.take_append_drop, lowerBlock]
  simp only [List.length_drop, List.length_append] at hleft hlength
  refine originIn_of_suffix h.suffix (by omega) ?_
  rw [inRow, hblock, List.length_append, List.length_append]
  omega

end Stands

namespace WellFormed

theorem ops_pos (h : code.WellFormed) (hb : b ∈ code.blocks) : 0 < b.ops.length := by
  obtain ⟨before, last, hops, -⟩ := h.terminated b hb
  simp [hops]

theorem isTerminator_iff (h : code.WellFormed) (hb : b ∈ code.blocks) (hop : b.ops[k]? = some op) :
    op.isTerminator = true ↔ k + 1 = b.ops.length := by
  obtain ⟨before, last, hops, hlast, hbefore⟩ := h.terminated b hb
  rw [hops] at hop ⊢
  rw [List.length_append, List.length_singleton]
  rcases Nat.lt_or_ge k before.length with hlt | hge
  · grind
  · grind

theorem succ_lt_of_not_leaves (h : code.WellFormed) (hb : b ∈ code.blocks)
    (hop : b.ops[k]? = some op)
    (hleaves : op.registerEffect.asCall.leaves = false) : k + 1 < b.ops.length := by
  rw [Effect.leaves_asCall, Op.leaves_registerEffect] at hleaves
  have hlt := (List.getElem?_eq_some_iff.1 hop).1
  have hne : ¬ k + 1 = b.ops.length := fun heq => by
    simp [(h.isTerminator_iff hb hop).2 heq] at hleaves
  omega

theorem exists_stands (h : code.WellFormed) (firstWide : Option String)
    (ht : t ∈ code.blocks.map RegisterBlock.id) :
    ∃ b post, b.id = t ∧ Stands code firstWide b post 0 (code.start firstWide t) := by
  have hdrop := drop_startIn firstWide t code.blocks
  have hsuffix := List.dropWhile_suffix (l := code.blocks) (·.id ≠ t)
  have hhead := List.find?_not_eq_head?_dropWhile (·.id ≠ t) code.blocks
  cases hrest : code.blocks.dropWhile (·.id ≠ t) with
  | nil => grind
  | cons b post =>
    rw [hrest] at hdrop hsuffix hhead
    refine ⟨b, post, by simpa using List.find?_some hhead, hsuffix, ?_, hdrop⟩
    exact h.ops_pos (hsuffix.subset List.mem_cons_self)

end WellFormed

theorem Stands.next (hstands : Stands code firstWide b post k index) (h : code.WellFormed)
    (hop : b.ops[k]? = some op)
    (hleaves : op.registerEffect.asCall.leaves = false) {is : List Instruction}
    (hlower : lowerOp firstWide (next? post) op = is) :
    Stands code firstWide b post (k + 1) (index + is.length) :=
  ⟨hstands.suffix, h.succ_lt_of_not_leaves hstands.mem hop hleaves,
    hlower ▸ hstands.drop_behind hop⟩

theorem Stands.follow (hstands : Stands code firstWide b post k index) (h : code.WellFormed)
    (hop : b.ops[k]? = some op) (hterminator : op.isTerminator = true) (ht : next? post = some t) :
    ∃ c post', c.id = t ∧ c :: post' = post ∧
      Stands code firstWide c post' 0 (index + (lowerOp firstWide (next? post) op).length) := by
  have hdrop := hstands.drop_behind hop
  rw [(h.isTerminator_iff hstands.mem hop).1 hterminator, List.drop_length, List.flatMap_nil,
    List.nil_append] at hdrop
  cases post with
  | nil => simp [next?] at ht
  | cons c post' =>
    have hsuffix : c :: post' <:+ code.blocks :=
      (List.suffix_cons b (c :: post')).trans hstands.suffix
    refine ⟨c, post', by simpa [next?] using ht, rfl, hsuffix, ?_, hdrop⟩
    exact h.ops_pos (hsuffix.subset List.mem_cons_self)

/-! ## Registers that may still be read -/

variable {V W : Type} {host : Host V W} {args : Nat → V} {w : W} {m m' : Memory V}
  {l : BlockId × Nat} {e e' : Effect} {stale : Option Reg}

/-- The memories agree on what may still be read from a place on, except for one register
perhaps. -/
structure Agrees (code : RegisterCode) (l : BlockId × Nat) (stale : Option Reg) (m m' : Memory V) :
    Prop where
  caught : m.caught = m'.caught
  store : ∀ reg, code.routine.asCalls.Live reg l → stale ≠ some reg → m.store reg = m'.store reg

namespace Agrees

theorem read (h : Agrees code l none m m') (he : code.routine.asCalls.effect? l = some e)
    {reg : Reg} (hreg : reg ∈ e.operands) : m.store reg = m'.store reg :=
  h.store reg (.read he hreg) (by simp)

theorem pass (h : Agrees code l stale m m') (he : code.routine.asCalls.effect? l = some e)
    (hleaves : e.leaves = false) (hstale : ∀ reg, stale = some reg → e.dest? = some reg)
    (hdest : e'.dest? = e.dest?) {value : Option V} (hvalue : value = none → e.dest? = none) :
    Agrees code (l.1, l.2 + 1) none (m.after e value) (m'.after e' value) := by
  refine ⟨by simpa using h.caught, fun reg hlive _ => ?_⟩
  have hold : e.dest? ≠ some reg → m.store reg = m'.store reg := fun hne =>
    h.store reg (.pass he hleaves hne hlive) fun heq => hne (hstale reg heq)
  cases hd : e.dest? with
  | none =>
    rw [m.store_after_of_no_dest hd, m'.store_after_of_no_dest (hdest.trans hd)]
    exact hold (by simp [hd])
  | some d =>
    obtain ⟨x, rfl⟩ : ∃ x, value = some x := Option.ne_none_iff_exists'.1 fun hnone => by
      simp [hvalue hnone] at hd
    rw [m.after_of_dest hd, m'.after_of_dest (hdest.trans hd)]
    by_cases heq : reg = d
    · simp [heq]
    · simpa [heq] using hold (by simpa [hd] using Ne.symm heq)

theorem jump (h : Agrees code l none m m') (he : code.routine.asCalls.effect? l = some e)
    (ht : t ∈ e.targets) :
    Agrees code (t, 0) none m m' :=
  ⟨h.caught, fun reg hlive _ => h.store reg (.jump he ht hlive) (by simp)⟩

/-- A handler is entered with what the registers held before, so the stale one must not be read. -/
theorem raise (h : Agrees code l stale m m') (he : code.routine.asCalls.effect? l = some e)
    (hthrow : e.canThrow = true)
    {handler : Handler} (hh : handler ∈ code.routine.asCalls.handlers l)
    (hstale : ∀ reg, stale = some reg → code.routine.asCalls.Live reg (handler.target, 0) →
      m.store reg = m'.store reg)
    (x : V) : Agrees code (handler.target, 0) none { m with caught := x }
    { m' with caught := x } := by
  refine ⟨rfl, fun reg hlive _ => ?_⟩
  by_cases heq : stale = some reg
  · exact hstale reg heq hlive
  · exact h.store reg (.throws he hthrow hh hlive) heq

end Agrees

theorem CastsUnread.not_live (hcasts : code.CastsUnread) (hb : b ∈ code.blocks) (hop : op ∈ b.ops)
    (he : op.registerEffect.asCall = .act (.checkCast type) [value] (some dest))
    (hne : dest ≠ value) {handler : Handler} (hh : handler ∈ b.handlers) :
    ¬ code.routine.Live dest (handler.target, 0) := by
  cases op with
  | checkCast d v t =>
    injection he with haction hvalue hdest
    obtain rfl : register d = dest := by simpa using hdest
    obtain rfl : register v = value := by simpa using hvalue
    exact hcasts b hb d v t hop hne handler hh
  | _ => simp [Op.registerEffect, Op.effect, Effect.mapOperands, Effect.asCall, Action.asCall] at he

/-! ## Running together -/

def opsLeft (b : RegisterBlock) (post : List RegisterBlock) (k : Nat) : Nat :=
  b.ops.length - k + (post.flatMap RegisterBlock.ops).length

inductive Running (code : RegisterCode) (firstWide : Option String) :
    Nat → Option (Config (BlockId × Nat) V W) → Option (Config Nat V W) → Prop where
  | intro {b : RegisterBlock} {post : List RegisterBlock} {k index : Nat} {w : W}
      {m m' : Memory V} :
      Stands code firstWide b post k index → Agrees code (b.id, k) none m m' →
      Running code firstWide (2 * opsLeft b post k + 1) (some ⟨(b.id, k), w, m⟩)
        (some ⟨index, w, m'⟩)

/-- Both are at the same place, or the code is about to get there, or it has just copied what it is
about to cast. -/
inductive Related (code : RegisterCode) (firstWide : Option String) (raw : Code) (host : Host V W)
    (args : Nat → V) :
    Nat → Option (Config (BlockId × Nat) V W) → Option (Config Nat V W) → Prop where
  | running {n : Nat} {a : Option (Config (BlockId × Nat) V W)} {c : Option (Config Nat V W)} :
      Running code firstWide n a c → Related code firstWide raw host args n a c
  | catchesUp {n : Nat} {a : Option (Config (BlockId × Nat) V W)} {c c' : Option (Config Nat V W)} :
      Slips (raw.routine.Step host args) c c' → Running code firstWide n a c' →
      Related code firstWide raw host args (n + 1) a c
  | casting {b : RegisterBlock} {post : List RegisterBlock} {k index : Nat} {op : Op}
      {type : TypeName} {value dest : Nat} {w : W} {m m' : Memory V} :
      Stands code firstWide b post k index → b.ops[k]? = some op →
      op.registerEffect.asCall = .act (.checkCast type) [value] (some dest) →
      lowerOp firstWide (next? post) op = [.move dest value, .checkCast dest type] →
      Agrees code (b.id, k) (some dest) m m' → m.store value = m'.store dest →
      Related code firstWide raw host args (2 * opsLeft b post k) (some ⟨(b.id, k), w, m⟩)
        (some ⟨index + 1, w, m'⟩)
  | ended : Related code firstWide raw host args 0 none none

def StepTogether (code : RegisterCode) (firstWide : Option String) (raw : Code) (host : Host V W)
    (args : Nat → V) (a : Option (Config (BlockId × Nat) V W)) (c : Option (Config Nat V W)) :
    Prop :=
  Matched (code.routine.asCalls.Step host args) (raw.routine.Step host args)
      (Related code firstWide raw host args) a c ∧
    Matched (raw.routine.Step host args) (code.routine.asCalls.Step host args)
      (fun n c a => Related code firstWide raw host args n a c) c a

def ReachesBlock (code : RegisterCode) (firstWide : Option String) (raw : Code) (t index : Nat) :
    Prop :=
  (∃ b post, b.id = t ∧ Stands code firstWide b post 0 index) ∨
    t ∈ code.blocks.map RegisterBlock.id ∧ raw.instructions[index]? =
      some (.goto (code.start firstWide t))

section Together

variable (h : code.WellFormed) (hraw : code.lower firstWide = .ok raw)
include h

theorem effect?_of_stands (hstands : Stands code firstWide b post k index)
    (hop : b.ops[k]? = some op)
    (he : op.registerEffect.asCall = e) : code.routine.asCalls.effect? (b.id, k) = some e := by
  subst he
  simp only [Routine.asCalls, routine, h.block?_eq_some hstands.mem, Option.bind_some, hop,
    Option.map_some]

theorem handlers_of_stands (hstands : Stands code firstWide b post k index) :
    code.routine.asCalls.handlers (b.id, k) = b.handlers := by
  simp only [Routine.asCalls, routine, h.block?_eq_some hstands.mem, Option.map_some,
    Option.getD_some]

theorem related_of_reaches (ht : ReachesBlock code firstWide raw t index)
    (hagrees : Agrees code (t, 0) none m m') :
    ∃ n, Related code firstWide raw host args n (some ⟨(t, 0), w, m⟩) (some ⟨index, w, m'⟩) := by
  rcases ht with ⟨b, post, rfl, hstands⟩ | ⟨ht, hgoto⟩
  · exact ⟨_, .running (.intro hstands hagrees)⟩
  · obtain ⟨b, post, rfl, hstands⟩ := h.exists_stands firstWide ht
    refine ⟨_, .catchesUp (slips_of_goto (t := code.start firstWide b.id) ?_)
      (.intro hstands hagrees)⟩
    simp [Code.routine, hgoto, Instruction.effect]

theorem reachesBlock_start (hop : op ∈ b.ops) (hb : b ∈ code.blocks)
    (ht : t ∈ op.registerEffect.asCall.targets) :
    ReachesBlock code firstWide raw t (code.start firstWide t) := by
  refine .inl (h.exists_stands firstWide (h.targets b hb op hop t ?_))
  simpa using ht

include hraw

theorem instructions_of_lower :
    raw.instructions = (inRow firstWide code.blocks).map
      (Instruction.mapTargets (code.start firstWide)) := by
  rw [h.lower_eq_ok] at hraw
  obtain rfl := Except.ok.inj hraw
  rfl

section

variable (hstands : Stands code firstWide b post k index) (hop : b.ops[k]? = some op)
include hstands hop

theorem getElem?_of_stands {j : Nat} (hj : (lowerOp firstWide (next? post) op)[j]? = some i) :
    raw.instructions[index + j]? = some (i.mapTargets (code.start firstWide)) := by
  rw [instructions_of_lower h hraw, List.getElem?_map, hstands.getElem?_lowerOp hop hj]
  rfl

/-- The blocks and the code take the next step together if they do the same with the same values and
get to the same places. -/
theorem stepTogether_of_stands
    (he : op.registerEffect.asCall = e) {j : Nat}
    (hj : (lowerOp firstWide (next? post) op)[j]? = some i)
    (he' : (i.mapTargets (code.start firstWide)).effect (index + j) = e')
    {operand : Nat → Nat → Prop}
    (hcorr : e.Corresponds operand (ReachesBlock code firstWide raw) e')
    (hstore : ∀ a c, operand a c → m.store a = m'.store c) (hcaught : m.caught = m'.caught)
    (hjump : ∀ t ∈ e.targets, Agrees code (t, 0) none m m')
    (hraise : e.canThrow = true → ∀ handler ∈ b.handlers, ∀ x,
      Agrees code (handler.target, 0) none { m with caught := x } { m' with caught := x })
    (hnext : ∀ (w' : W) value, e.leaves = false → (value = none → e.dest? = none) →
      ∃ n, Related code firstWide raw host args n (some ⟨(b.id, k + 1), w', m.after e value⟩)
        (some ⟨index + j + 1, w', m'.after e' value⟩)) :
    StepTogether code firstWide raw host args (some ⟨(b.id, k), w, m⟩)
      (some ⟨index + j, w, m'⟩) := by
  have hblock := effect?_of_stands h hstands hop he
  have hinstruction : raw.routine.effect? (index + j) = some e' := by
    simp only [Code.routine, getElem?_of_stands h hraw hstands hop hj, Option.map_some, he']
  have hlt := (List.getElem?_eq_some_iff.1 hj).1
  have hhandlers := h.handlersAt_lowered hraw (hstands.origin?_eq hop hlt)
  refine matched_both hblock hinstruction hcorr hstore hcaught ?_
  constructor
  case next =>
    intro seen w' value hrun
    exact hnext w' value hrun.leaves_of_next fun hnone => by
      subst hnone
      exact hrun.dest?_eq_none
  case jump =>
    intro seen w' t t' hrun _ ht
    exact related_of_reaches h ht (hjump t hrun.mem_targets_of_jump)
  case raise =>
    intro seen w' x hrun
    rw [handlers_of_stands h hstands]
    change SameHandlers _ _ (raw.handlersAt (index + j))
    rw [hhandlers]
    refine List.forall₂_map_right_iff.2 (List.forall₂_same.2 fun handler hh => ⟨rfl, ?_⟩)
    refine related_of_reaches h (.inl ?_) (hraise hrun.canThrow_of_raise handler hh x)
    exact h.exists_stands firstWide (h.handlers b hstands.mem handler hh)
  case ends => exact ⟨0, .ended⟩

theorem stepTogether_of_agrees
    (he : op.registerEffect.asCall = e) (hi : (lowerOp firstWide (next? post) op)[0]? = some i)
    (he' : (i.mapTargets (code.start firstWide)).effect index = e') {target : Nat → Nat → Prop}
    (hcorr : e.Corresponds Eq target e')
    (htarget : ∀ t ∈ e.targets, ∀ t', target t t' → ReachesBlock code firstWide raw t t')
    (hagrees : Agrees code (b.id, k) none m m')
    (hnext : ∀ (w' : W) value, e.leaves = false → (value = none → e.dest? = none) →
      ∃ n, Related code firstWide raw host args n (some ⟨(b.id, k + 1), w', m.after e value⟩)
        (some ⟨index + 1, w', m'.after e' value⟩)) :
    StepTogether code firstWide raw host args (some ⟨(b.id, k), w, m⟩) (some ⟨index, w, m'⟩) := by
  have heffect := effect?_of_stands h hstands hop he
  refine stepTogether_of_stands h hraw hstands hop he (j := 0) hi he'
    (hcorr.restrict.imp (fun _ _ hab => hab) fun t t' ht => htarget t ht.1 t' ht.2)
    ?_ hagrees.caught ?_ ?_ hnext
  · rintro a c ⟨ha, rfl⟩
    exact hagrees.read heffect ha
  · exact fun t ht => hagrees.jump heffect ht
  · intro hthrow handler hh x
    exact hagrees.raise heffect hthrow (by rwa [handlers_of_stands h hstands]) (by simp) x

theorem stepTogether_alone (hlower : lowerOp firstWide (next? post) op = [i])
    (hi : ∀ f index, ((i.mapTargets f).effect index).dest? = op.registerEffect.asCall.dest? ∧
      op.registerEffect.asCall.Corresponds Eq (fun t t' => t' = f t)
        ((i.mapTargets f).effect index))
    (hagrees : Agrees code (b.id, k) none m m') :
    StepTogether code firstWide raw host args (some ⟨(b.id, k), w, m⟩) (some ⟨index, w, m'⟩) := by
  have he := effect?_of_stands h hstands hop rfl
  obtain ⟨hdest, hcorr⟩ := hi (code.start firstWide) index
  refine stepTogether_of_agrees h hraw hstands hop rfl (by rw [hlower]; rfl) rfl hcorr ?_ hagrees ?_
  · rintro t ht t' rfl
    exact reachesBlock_start h (List.mem_of_getElem? hop) hstands.mem ht
  · intro w' value hleaves hvalue
    have hstands' := hstands.next h hop hleaves hlower
    exact ⟨_, .running (.intro hstands' (hagrees.pass he hleaves (by simp) hdest hvalue))⟩

theorem stepTogether_picked {dest : Nat}
    (he : op.registerEffect.asCall = .act action operands (some dest))
    (hlower : lowerOp firstWide (next? post) op = [i, .moveResult dest])
    (hi : ∀ f index, (i.mapTargets f).effect index = .act action operands none)
    (hagrees : Agrees code (b.id, k) none m m') :
    StepTogether code firstWide raw host args (some ⟨(b.id, k), w, m⟩) (some ⟨index, w, m'⟩) := by
  have heffect := effect?_of_stands h hstands hop he
  refine stepTogether_of_agrees h hraw hstands hop he (by rw [hlower]; rfl) (hi _ _)
    (.act (List.forall₂_same.2 fun _ _ => rfl)) (fun _ _ _ ht => ht) hagrees ?_
  intro w' value hleaves hvalue
  obtain ⟨x, rfl⟩ : ∃ x, value = some x :=
    Option.ne_none_iff_exists'.1 fun hnone => by simpa [Effect.dest?] using hvalue hnone
  have hstands' := hstands.next h hop (he ▸ hleaves) hlower
  have hpick : raw.routine.effect? (index + 1) = some (.result dest) := by
    have hget := getElem?_of_stands h hraw hstands hop (j := 1) (by rw [hlower]; rfl)
    simp only [Code.routine, hget, Option.map_some]
    rfl
  refine ⟨_, .catchesUp (slips_of_moves hpick .result) (.intro hstands' ?_)⟩
  have hwaiting : Agrees code (b.id, k) none m { m' with result := x } :=
    ⟨hagrees.caught, hagrees.store⟩
  exact hwaiting.pass heffect hleaves (by simp) (rfl : (Effect.result dest).dest? =
    some dest) hvalue

theorem reachesBlock_default
    (hterminator : op.isTerminator = true) {default : BlockId} (hdefault : default ∈ op.targets)
    (hlower : lowerOp firstWide (next? post) op = i :: jumpUnlessNext (next? post) default) :
    ReachesBlock code firstWide raw default (index + 1) := by
  unfold jumpUnlessNext at hlower
  split at hlower
  · rename_i hnext
    obtain ⟨c, post', hc, -, hstands'⟩ := hstands.follow h hop hterminator hnext
    rw [hlower] at hstands'
    exact .inl ⟨c, post', hc, hstands'⟩
  · refine .inr ⟨h.targets b hstands.mem op (List.mem_of_getElem? hop) default hdefault, ?_⟩
    exact getElem?_of_stands h hraw hstands hop (j := 1) (by rw [hlower]; rfl)

theorem stepTogether_decides
    {default : BlockId}
    (hlower : lowerOp firstWide (next? post) op = i :: jumpUnlessNext (next? post) default)
    (hleaves : op.registerEffect.asCall.leaves = true)
    (hdefault : default ∈ op.registerEffect.asCall.targets)
    (hi : ∀ f index, op.registerEffect.asCall.Corresponds Eq
      (fun t t' => t' = f t ∨ t = default ∧ t' = index + 1) ((i.mapTargets f).effect index))
    (hagrees : Agrees code (b.id, k) none m m') :
    StepTogether code firstWide raw host args (some ⟨(b.id, k), w, m⟩) (some ⟨index, w, m'⟩) := by
  refine stepTogether_of_agrees h hraw hstands hop rfl (by rw [hlower]; rfl) rfl
    (hi (code.start firstWide) index) ?_ hagrees ?_
  · rintro t ht t' (rfl | ⟨rfl, rfl⟩)
    · exact reachesBlock_start h (List.mem_of_getElem? hop) hstands.mem ht
    · exact reachesBlock_default h hraw hstands hop (by simpa using hleaves)
        (by simpa using hdefault)
        hlower
  · grind

variable (he : op.registerEffect.asCall = .act (.checkCast type) [value] (some dest))
  (hlower : lowerOp firstWide (next? post) op = [.move dest value, .checkCast dest type])
include he hlower

/-- The cast itself.  Only its destination differs before it, and no handler reads that. -/
theorem stepTogether_casting (hcasts : code.CastsUnread)
    (hagrees : Agrees code (b.id, k) (some dest) m m') (hcopied : m.store value = m'.store dest) :
    StepTogether code firstWide raw host args (some ⟨(b.id, k), w, m⟩)
      (some ⟨index + 1, w, m'⟩) := by
  have heffect := effect?_of_stands h hstands hop he
  have hcorr : (Effect.act (.checkCast type) [value] (some dest)).Corresponds
      (fun a c => a = value ∧ c = dest) (ReachesBlock code firstWide raw)
      (.act (.checkCast type) [dest] (some dest)) := .act (.cons ⟨rfl, rfl⟩ .nil)
  refine stepTogether_of_stands h hraw hstands hop he (j := 1) (by rw [hlower]; rfl) rfl hcorr ?_
    hagrees.caught ?_ ?_ ?_
  · grind
  · intro t ht
    simp [Effect.targets] at ht
  · intro hthrow handler hh x
    refine hagrees.raise heffect hthrow (by rwa [handlers_of_stands h hstands]) ?_ x
    rintro reg hreg hlive
    obtain rfl := Option.some.inj hreg
    by_cases heq : dest = value
    · rw [← hcopied, heq]
    · exact absurd (Routine.live_of_asCalls hlive)
        (hcasts.not_live hstands.mem (List.mem_of_getElem? hop) he heq hh)
  · intro w' value hleaves hvalue
    have hstands' := hstands.next h hop (he ▸ hleaves) hlower
    exact ⟨_, .running (.intro hstands' (hagrees.pass heffect hleaves (fun _ => id) rfl hvalue))⟩

/-- Before a cast into another register the code copies what is cast. -/
theorem slips_cast (hagrees : Agrees code (b.id, k) none m m') :
    ∃ m'', Slips (raw.routine.Step host args) (some ⟨index, w, m'⟩) (some ⟨index + 1, w, m''⟩) ∧
      Agrees code (b.id, k) (some dest) m m'' ∧ m.store value = m''.store dest := by
  have heffect := effect?_of_stands h hstands hop he
  have hmove : raw.routine.effect? index = some (.copy dest value) := by
    have hget := getElem?_of_stands h hraw hstands hop (j := 0) (by rw [hlower]; rfl)
    rw [Nat.add_zero] at hget
    simp only [Code.routine, hget, Option.map_some]
    rfl
  refine ⟨_, slips_of_moves hmove .copy, ⟨by simpa using hagrees.caught, fun reg hlive hne => ?_⟩,
    ?_⟩
  · have hreg : reg ≠ dest := fun heq => hne (congrArg some heq.symm)
    rw [m'.after_of_dest rfl]
    simpa [hreg] using hagrees.store reg hlive (by simp)
  · rw [m'.after_of_dest rfl]
    simpa using hagrees.read heffect (List.mem_singleton.2 rfl)

end

theorem lockstep_lowered (hcasts : code.CastsUnread) :
    Lockstep (code.routine.asCalls.Step host args) (raw.routine.Step host args)
      (Related code firstWide raw host args) := by
  intro n a c hrelated
  cases hrelated with
  | ended => exact .inr (.inr ⟨fun _ _ hstep => (nomatch hstep), fun _ _ hstep => (nomatch hstep)⟩)
  | catchesUp hslips hrunning =>
    exact .inr (.inl ⟨_, Nat.lt_succ_self _, _, hslips, .running hrunning⟩)
  | casting hstands hop he hlower hagrees hcopied =>
    exact .inr (.inr (stepTogether_casting h hraw hstands hop he hlower hcasts hagrees hcopied))
  | running hrunning =>
    cases hrunning with
    | @intro b post k index w m m' hstands hagrees =>
      obtain ⟨op, hop⟩ : ∃ op, b.ops[k]? = some op := ⟨_, List.getElem?_eq_getElem hstands.lt⟩
      have heffect := effect?_of_stands h hstands hop rfl
      have hlowers := lowers firstWide (next? post) op
      generalize he : op.registerEffect.asCall = e at hlowers heffect
      generalize hlower : lowerOp firstWide (next? post) op = is at hlowers
      have hlt := hstands.lt
      cases hlowers with
      | nothing =>
        have hstands' := hstands.next h hop (by rw [he]; rfl) hlower
        refine .inl ⟨_, ?_, _, slips_of_moves heffect .skip, .running (.intro hstands' ?_)⟩
        · simp only [opsLeft]
          omega
        · exact hagrees.pass heffect rfl (by simp) (rfl : Effect.skip.dest? = none) fun _ => rfl
      | falls hnext =>
        obtain ⟨c, post', rfl, rfl, hstands'⟩ := hstands.follow h hop
          (by rw [← Op.leaves_registerEffect, ← Effect.leaves_asCall, he]; rfl) hnext
        rw [hlower] at hstands'
        refine .inl ⟨_, ?_, _, slips_of_goto heffect, .running (.intro hstands' ?_)⟩
        · simp only [opsLeft, List.flatMap_cons, List.length_append]
          omega
        · exact hagrees.jump heffect (List.mem_singleton.2 rfl)
      | alone hi =>
        subst he
        exact .inr (.inr (stepTogether_alone h hraw hstands hop hlower hi hagrees))
      | picked hi =>
        exact .inr (.inr (stepTogether_picked h hraw hstands hop he hlower hi hagrees))
      | cast =>
        obtain ⟨m'', hslips, hagrees', hcopied⟩ := slips_cast h hraw hstands hop he hlower hagrees
        exact .inr (.inl ⟨_, Nat.lt_succ_self _, _, hslips,
          .casting hstands hop he hlower hagrees' hcopied⟩)
      | decides hleaves hdefault hi =>
        subst he
        exact .inr
          (.inr (stepTogether_decides h hraw hstands hop hlower hleaves hdefault hi hagrees))

theorem inStep_lowered (hcasts : code.CastsUnread) (host : Host V W) (args : Nat → V) (w : W)
    (m : Memory V) :
    InStep (code.routine.asCalls.Step host args) (raw.routine.Step host args)
      (some ⟨(code.entry, 0), w, m⟩) (some ⟨0, w, m⟩) := by
  cases hblocks : code.blocks with
  | nil =>
    have hraw' := instructions_of_lower h hraw
    refine inStep_of_stuck (fun _ _ hstep => ?_) (fun _ _ hstep => ?_)
    · obtain ⟨e, he⟩ := hstep.exists_effect
      simp [Routine.asCalls, routine, block?, hblocks] at he
    · obtain ⟨e, he⟩ := hstep.exists_effect
      simp [Code.routine, hraw', hblocks, inRow] at he
  | cons b post =>
    have hb : b ∈ code.blocks := by simp [hblocks]
    have hstands : Stands code firstWide b post 0 0 := ⟨by rw [hblocks], h.ops_pos hb, by
      rw [hblocks]; rfl⟩
    have hentry : code.entry = b.id := by simp [entry, hblocks]
    rw [hentry]
    exact ⟨_, _, lockstep_lowered h hraw hcasts, .running (.intro hstands ⟨rfl, fun _ _ _ => rfl⟩)⟩

end Together

/-- Blocks that are well-formed can be lowered, and whatever the actions mean, the code runs in step
with them from any memory.  Control stays inside the code, and every instruction has the handlers of
the block it comes from. -/
theorem lowered_runs_in_step (code : RegisterCode) (firstWide : Option String) (h : code.WellFormed)
    (hcasts : code.CastsUnread) :
    ∃ raw, code.lower firstWide = .ok raw ∧ raw.Closed ∧
      (∀ index < raw.instructions.length, ∃ b ∈ code.blocks, code.origin? firstWide index = some b ∧
        raw.handlersAt index = b.handlers.map (code.resolveHandler firstWide)) ∧
      ∀ (V W : Type) (host : Host V W) (args : Nat → V) (w : W) (m : Memory V), host.ChecksByCall →
        InStep ((code.routine.Step host args).through Observation.asCall)
          (raw.routine.Step host args)
          (some ⟨(code.entry, 0), w, m⟩) (some ⟨0, w, m⟩) := by
  have hraw := h.lower_eq_ok firstWide
  refine ⟨_, hraw, h.closed_lowered hraw, fun index hindex => ?_, ?_⟩
  · obtain ⟨b, hb, horigin⟩ := exists_origin (by simpa using hindex)
    exact ⟨b, hb, horigin, h.handlersAt_lowered hraw horigin⟩
  · intro V W host args w m hcalls
    rw [Routine.step_asCalls hcalls]
    exact inStep_lowered h hraw hcasts host args w m

/-- Casts its argument and asks about it, until the answer is zero.  The two first blocks share a
handler that gives back the exception. -/
def castLoop : RegisterCode where
  method := ⟨⟨"p.A"⟩, "f", ⟨.object, [.object]⟩⟩
  registers := 3
  ins := 1
  blocks := [
    ⟨0, [.argument 0 0, .nullCheck 0, .checkCast 1 0 .string, .goto 1], [⟨none, 3⟩]⟩,
    ⟨1, [.invoke .static ⟨⟨"lib.L"⟩, "g", ⟨.int, [.string]⟩⟩ [1] (some 2), .branch .ne 2 none 0 2],
      [⟨none, 3⟩]⟩,
    ⟨3, [.moveException 1, .goto 2], []⟩,
    ⟨2, [.ret (some 1)], []⟩]

def castless : Host Nat Unit where
  performs w action _ outcome w' :=
    w' = w ∧ outcome = match action with
      | .checkCast _ => .raises 9
      | _ => .completes 0
  holds _ left _ := left != 0
  isKey _ _ := false
  isInstance _ _ := false

/-- When the cast fails, the copy made for it is lost on the handler. -/
theorem lowered_runs_in_step_castLoop :
    castLoop.WellFormed ∧ castLoop.CastsUnread ∧
      ∃ raw, castLoop.lower none = .ok raw ∧ raw.tries = [⟨0, 7, [⟨none, 7⟩]⟩] ∧
        ∃ c, Run (raw.routine.Step castless fun _ => 5) (some ⟨0, (), ⟨fun _ => 5, 0, 0⟩⟩)
          [.performed (.invoke .virtual getClass) [5] (.completes 0),
            .performed (.checkCast .string) [5] (.raises 9), .caught none 9,
              .returned (some 9)] c := by
  have hwf : castLoop.WellFormed := by
    refine ⟨by decide, ?_, by decide, by decide⟩
    simp only [castLoop, List.forall_mem_cons, List.not_mem_nil, false_implies,
      implies_true, and_true]
    exact ⟨⟨[_, _, _], _, rfl, rfl, by decide⟩, ⟨[_], _, rfl, rfl, by decide⟩,
      ⟨[_], _, rfl, rfl, by decide⟩, ⟨[], _, rfl, rfl, by decide⟩⟩
  have hcasts : castLoop.CastsUnread := by
    intro b hb dest value type hop hne handler hh
    simp only [castLoop, List.mem_cons, List.not_mem_nil, or_false] at hb
    rcases hb with rfl | rfl | rfl | rfl
    · obtain ⟨rfl, rfl, rfl⟩ : dest = 1 ∧ value = 0 ∧ type = .string := by simpa using hop
      obtain rfl := List.mem_singleton.1 hh
      exact Routine.not_live_of_written (e := .caught 1) rfl rfl (by decide) rfl rfl
    all_goals simp at hop
  obtain ⟨raw, hraw, -, -, hstep⟩ := lowered_runs_in_step castLoop none hwf hcasts
  refine ⟨hwf, hcasts, raw, hraw, ?_, ?_⟩
  · have htries : (castLoop.lower none).map Code.tries = .ok [⟨0, 7, [⟨none, 7⟩]⟩] := by
      decide +kernel
    rw [hraw] at htries
    exact Except.ok.inj htries
  · have hcalls : castless.ChecksByCall := fun _ _ _ _ => Iff.rfl
    refine ((hstep Nat Unit castless (fun _ => 5) () ⟨fun _ => 5, 0, 0⟩ hcalls).sameBehaviour.seen
      _).1 ?_
    have hrun : Run ((castLoop.routine.Step castless fun _ => 5).through Observation.asCall)
        (some ⟨(0, 0), (), ⟨fun _ => 5, 0, 0⟩⟩) _ _ :=
      .head ⟨_, .next rfl .skip, rfl⟩ <|
      .head ⟨_, .next rfl (.completes (by decide) ⟨rfl, rfl⟩), rfl⟩ <|
      .head ⟨_, .caught rfl (.raises rfl ⟨rfl, rfl⟩) rfl, rfl⟩ <|
      .head ⟨_, .next rfl .caught, rfl⟩ <|
      .head ⟨_, .jump rfl .goto, rfl⟩ <|
      .head ⟨_, .halt rfl .ret, rfl⟩ <| .refl _
    exact ⟨_, hrun⟩

end BytecodeOpt.RegisterCode
