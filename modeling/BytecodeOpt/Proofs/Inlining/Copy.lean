import BytecodeOpt.Pass.Inlining
import BytecodeOpt.Proofs.Lift.Lifted
import BytecodeOpt.Proofs.Ssa.Expansion

/-!
# Copies of straight bodies

A body without branches is copied operation by operation, each result under a new value of the
caller.  The copy mirrors the body: it does the same on the values that stand for those of the body.
-/

namespace BytecodeOpt

open Execution Ssa

namespace Op

variable (f : Operand → Operand) (op : Op)

@[simp] theorem dest?_mapDest : (op.mapDest f).dest? = op.dest?.map f := by cases op <;> rfl

@[simp] theorem uses_mapDest : (op.mapDest f).uses = op.uses := by cases op <;> rfl

theorem mapDest_of_no_dest (h : op.dest? = none) : op.mapDest f = op := by
  cases op with
  | invoke kind method args dest =>
    obtain rfl : dest = none := h
    rfl
  | invokeCustom site args dest =>
    obtain rfl : dest = none := h
    rfl
  | filledNewArray dest type args =>
    obtain rfl : dest = none := h
    rfl
  | _ => first | rfl | cases h

@[simp] theorem isPlain_mapDest : (op.mapDest f).isPlain = op.isPlain := by cases op <;> rfl

@[simp] theorem isPlain_mapUses : (op.mapUses f).isPlain = op.isPlain := by cases op <;> rfl

theorem isArgument_of_isPlain {op : Op} (h : op.isPlain = true) : op.isArgument = false := by
  cases op with
  | argument dest index => cases h
  | _ => rfl

theorem effect_cases (hplain : op.isPlain = true) (hline : op.isLine = false) :
    (∃ dest source, op = .move dest source) ∨
      ∃ action, action ≠ Action.throw ∧ op.effect = .act action op.uses op.dest? ∧
        ∀ f g, ((op.mapUses f).mapDest g).effect = .act action (op.uses.map f)
          (op.dest?.map g) := by
  cases op with
  | move dest source => exact .inl ⟨dest, source, rfl⟩
  | argument dest index => cases hplain
  | moveException dest => cases hplain
  | line number => cases hline
  | goto target => cases hplain
  | branch cond left right onTrue onFalse => cases hplain
  | switch value keys targets default => cases hplain
  | ret value => cases hplain
  | throw value => cases hplain
  | _ => exact .inr ⟨_, by simp, rfl, fun _ _ => rfl⟩

end Op

namespace Pass.Inlining

variable {callee body body' : Body} {ops out more : List Op} {op : Op} {map map' : ValueMap}
  {n n' : Nat} {b : BlockId} {k : Nat} {straight : StraightBody} {target : BlockId}
  {args : List Operand} {blocks : Nat}

/-! ## What is copied -/

def ValueMap.read (map : ValueMap) (v : Operand) : Operand := (map.lookup v).getD v

/-- Operations are copied to others.  The numbers count the values of the caller before and
after. -/
inductive Copies : List Op → ValueMap → Nat → List Op → ValueMap → Nat → Prop where
  | nil {map : ValueMap} {n : Nat} : Copies [] map n [] map n
  | plain {op : Op} {ops out : List Op} {map map' : ValueMap} {n n' : Nat} : op.dest? = none →
      (∀ v ∈ op.uses, (map.lookup v).isSome = true) → Copies ops map n out map' n' →
      Copies (op :: ops) map n (op.mapUses map.read :: out) map' n'
  | result {op : Op} {dest : Operand} {ops out : List Op} {map map' : ValueMap} {n n' : Nat} :
      op.dest? = some dest → (∀ v ∈ op.uses, (map.lookup v).isSome = true) →
      Copies ops ((dest, n) :: map) (n + 1) out map' n' →
      Copies (op :: ops) map n ((op.mapUses map.read).mapDest (fun _ => n) :: out) map' n'

theorem copyOps_keeps (callee : Body) (ops : List Op) (map : ValueMap) (body : Body) :
    ∃ values, (copyOps callee ops map body).1 = { body with values } ∧
      body.values.size ≤ values.size := by
  fun_induction copyOps callee ops map body with
  | case1 => exact ⟨_, rfl, Nat.le_refl _⟩
  | case2 _ _ _ _ _ ih => exact ih
  | case3 _ _ _ _ _ _ _ _ _ _ hrest ih => rwa [hrest] at ih
  | case4 _ _ _ _ _ _ _ _ _ _ _ _ hrest ih =>
    rw [hrest] at ih
    obtain ⟨values, hbody, hle⟩ := ih
    rw [Body.addValue, Array.size_push] at hle
    exact ⟨values, hbody, Nat.le_of_succ_le hle⟩
  | case5 => exact ⟨_, rfl, Nat.le_refl _⟩

theorem copies_of_copyOps (hops : ∀ op ∈ ops, op.isArgument = false)
    (h : copyOps callee ops map body = (body', some (out, map'))) :
    Copies ops map body.valueCount out map' body'.valueCount := by
  fun_induction copyOps callee ops map body generalizing out with
  | case1 =>
    cases h
    exact .nil
  | case2 => exact absurd (hops _ List.mem_cons_self) (by simp [Op.isArgument])
  | case3 op rest map body _ hreads _ hdest _ result hrest =>
    rename_i ih
    simp only [Prod.mk.injEq, Option.map_eq_some_iff, Prod.exists] at h
    obtain ⟨rfl, tail, last, rfl, rfl, rfl⟩ := h
    exact .plain hdest (List.all_eq_true.1 hreads)
      (ih (fun op hop => hops op (List.mem_cons_of_mem _ hop)) hrest)
  | case4 op rest map body _ hreads _ dest hdest _ _ result hrest =>
    rename_i ih
    simp only [Prod.mk.injEq, Option.map_eq_some_iff, Prod.exists] at h
    obtain ⟨rfl, tail, last, rfl, rfl, rfl⟩ := h
    have htail := ih (fun op hop => hops op (List.mem_cons_of_mem _ hop)) hrest
    rw [Body.valueCount_addValue] at htail
    exact .result hdest (List.all_eq_true.1 hreads) htail
  | case5 => cases h

namespace Copies

theorem le (h : Copies ops map n out map' n') : n ≤ n' := by
  induction h with
  | nil => exact Nat.le_refl _
  | plain _ _ _ ih => exact ih
  | result _ _ _ ih => exact Nat.le_of_succ_le ih

theorem dests_eq (h : Copies ops map n out map' n') : dests out = List.range' n (n' - n) := by
  induction h with
  | nil => simp [dests]
  | plain hdest _ _ ih => rw [dests_cons, Op.dest?_mapUses, hdest, ih, Option.toList_none,
      List.nil_append]
  | @result op dest ops out map map' n n' hdest _ htail ih =>
    have hle := htail.le
    rw [show n' - n = n' - (n + 1) + 1 by omega, List.range'_succ, ← ih, dests_cons,
      Op.dest?_mapDest,
      Op.dest?_mapUses, hdest, Option.map_some, Option.toList_some, List.singleton_append]

theorem lookup_read (hreads : ∀ v ∈ op.uses, (map.lookup v).isSome = true) :
    ∀ v ∈ op.uses, map.lookup v = some (map.read v) := by
  intro v hv
  obtain ⟨u, hu⟩ := Option.isSome_iff_exists.1 (hreads v hv)
  rw [ValueMap.read, hu, Option.getD_some]

/-- What is read, or stands for a value in the end, is known or was defined before. -/
def Reads (out : List Op) (map' : ValueMap) (known : List Operand) : Prop :=
  (∀ (j : Nat) (op : Op), out[j]? = some op → ∀ v ∈ op.uses, v ∈ dests (out.take j) ∨ v ∈ known) ∧
    ∀ x v, map'.lookup x = some v → v ∈ dests out ∨ v ∈ known

theorem Reads.cons {copy : Op} {known : List Operand}
    (h : Reads out map' (copy.dest?.toList ++ known)) (huses : copy.uses = op.uses.map map.read)
    (hreads : ∀ v ∈ op.uses, (map.lookup v).isSome = true)
    (hknown : ∀ x v, map.lookup x = some v → v ∈ known) : Reads (copy :: out) map' known := by
  constructor
  · intro j op' hop v hv
    cases j with
    | zero =>
      obtain rfl := Option.some.inj hop
      rw [huses] at hv
      obtain ⟨x, hx, rfl⟩ := List.mem_map.1 hv
      exact .inr (hknown x _ (lookup_read hreads x hx))
    | succ j =>
      have hread := h.1 j op' hop v hv
      rw [List.take_succ_cons, dests_cons]
      grind
  · intro x v hv
    have hread := h.2 x v hv
    rw [dests_cons]
    grind

theorem reads (h : Copies ops map n out map' n') {known : List Operand}
    (hknown : ∀ x v, map.lookup x = some v → v ∈ known) : Reads out map' known := by
  induction h generalizing known with
  | nil => exact ⟨fun j op hop => by simp at hop, fun x v hv => .inr (hknown x v hv)⟩
  | plain hdest hreads _ ih =>
    refine Reads.cons ?_ (Op.uses_mapUses ..) hreads hknown
    rw [Op.dest?_mapUses, hdest]
    exact ih hknown
  | result hdest hreads _ ih =>
    refine Reads.cons ?_ (by rw [Op.uses_mapDest, Op.uses_mapUses]) hreads hknown
    rw [Op.dest?_mapDest, Op.dest?_mapUses, hdest]
    exact ih (by grind)

theorem isPlain (h : Copies ops map n out map' n') (hops : ∀ op ∈ ops, op.isPlain = true) :
    ∀ op ∈ out, op.isPlain = true := by
  induction h with
  | nil => simp
  | plain _ _ _ ih | result _ _ _ ih =>
    rw [List.forall_mem_cons] at hops ⊢
    exact ⟨by simpa using hops.1, ih hops.2⟩

theorem append_inv {ops₁ ops₂ : List Op} (h : Copies (ops₁ ++ ops₂) map n out map' n') :
    ∃ out₁ out₂ map₁ n₁, out = out₁ ++ out₂ ∧ Copies ops₁ map n out₁ map₁ n₁ ∧
      Copies ops₂ map₁ n₁ out₂ map' n' := by
  induction ops₁ generalizing map n out with
  | nil => exact ⟨[], out, map, n, rfl, .nil, h⟩
  | cons op ops₁ ih =>
    cases h with
    | plain hdest hreads htail =>
      obtain ⟨out₁, out₂, map₁, n₁, rfl, h₁, h₂⟩ := ih htail
      exact ⟨_, out₂, map₁, n₁, rfl, .plain hdest hreads h₁, h₂⟩
    | result hdest hreads htail =>
      obtain ⟨out₁, out₂, map₁, n₁, rfl, h₁, h₂⟩ := ih htail
      exact ⟨_, out₂, map₁, n₁, rfl, .result hdest hreads h₁, h₂⟩

end Copies

/-! ## The copy mirrors the body -/

/-- The names are those of the map, and none of them is a value still to come. -/
structure Knows (names : Names) (map : ValueMap) (n : Nat) : Prop where
  value : ∀ x v, map.lookup x = some v → names.value x = some v
  taken : ∀ x v, names.value x = some v → v < n
  result : names.result = none

variable {names : Names} {given : List Operand} {returned : Option Operand}

section

variable (h : Knows names map n)
include h

theorem Knows.drop : Knows { names with result := none } map n :=
  ⟨h.value, h.taken, rfl⟩

theorem Knows.rename (x : Operand) : Knows (names.rename x n) ((x, n) :: map) (n + 1) := by
  refine ⟨fun y v hv => ?_, fun y v hv => ?_, h.result⟩
  · rw [List.lookup_cons] at hv
    split at hv
    · rename_i heq
      obtain rfl := beq_iff_eq.1 heq
      exact (Names.value_rename_self ..).trans hv
    · rename_i hne
      rw [Names.value_rename_of_ne (by simpa using hne)]
      exact h.value y v hv
  · by_cases hy : y = x
    · rw [hy, Names.value_rename_self] at hv
      exact Option.some.inj hv ▸ Nat.lt_succ_self n
    · rw [Names.value_rename_of_ne hy] at hv
      exact Nat.lt_succ_of_lt (h.taken y v hv)

theorem Knows.receive (x : Operand) : names.Receive (some x) (some n) (names.rename x n) :=
  .kept (fun y _ hy => Nat.lt_irrefl n (h.taken y n hy)) (by simp [h.result])

theorem Knows.forall₂ {vs : List Operand} (hvs : ∀ v ∈ vs, map.lookup v = some (map.read v)) :
    List.Forall₂ (fun x v => names.value x = some v) vs (vs.map map.read) :=
  List.forall₂_map_right_iff.2 (List.forall₂_same.2 fun v hv => h.value v _ (hvs v hv))

end

section Step

variable (hop : (callee.block b).ops[k]? = some op) (hplain : op.isPlain = true)
  (hline : op.isLine = false) (hhandlers : (callee.block b).handlers = [])
  (hknows : Knows names map n) (hreads : ∀ v ∈ op.uses, (map.lookup v).isSome = true)
include hop hplain hline hhandlers hknows hreads

theorem mirrors_plain (hdest : op.dest? = none)
    (hnext : ∀ names', Knows names' map n → ∃ i, Mirrors callee.routine given returned True i
      (b, k + 1) names' more) :
    ∃ i, Mirrors callee.routine given returned True i (b, k) names
      (op.mapUses map.read :: more) := by
  obtain ⟨i, hmore⟩ := hnext _ hknows.drop
  rcases op.effect_cases hplain hline with ⟨dest, source, rfl⟩ | ⟨action, hthrow, heffect, hcopy⟩
  · cases hdest
  · have heffect' := hcopy map.read id
    rw [Op.mapDest_of_no_dest _ _ (by rw [Op.dest?_mapUses, hdest]), hdest] at heffect'
    rw [hdest] at heffect
    exact ⟨0, .act ((Body.effect?_routine hop).trans (congrArg some heffect)) heffect'
      hthrow hhandlers
      (hknows.forall₂ (Copies.lookup_read hreads)) .dropped hmore⟩

theorem mirrors_result {dest : Operand} (hdest : op.dest? = some dest)
    (hnext : ∀ names', Knows names' ((dest, n) :: map) (n + 1) →
      ∃ i, Mirrors callee.routine given returned True i (b, k + 1) names' more) :
    ∃ i, Mirrors callee.routine given returned True i (b, k) names
      ((op.mapUses map.read).mapDest (fun _ => n) :: more) := by
  obtain ⟨i, hmore⟩ := hnext _ (hknows.rename dest)
  have hlookup := Copies.lookup_read hreads
  rcases op.effect_cases hplain hline with ⟨x, source, rfl⟩ | ⟨action, hthrow, heffect, hcopy⟩
  · -- the callee moves first, then the caller gives what was moved a value of its own
    obtain rfl : x = dest := Option.some.inj hdest
    have hsource := hknows.value source _ (hlookup source (by simp [Op.uses]))
    have hagain : (names.rename x (map.read source)).rename x n = names.rename x n := by
      simp [Names.rename]
    refine ⟨i + 1 + 1, .copy (Body.effect?_routine hop) hsource
      (.move (Names.value_rename_self ..) ?_ ?_)⟩
    · refine .kept (fun y hy => ?_) (by simp [Names.rename, hknows.result])
      rw [Names.value_rename_of_ne hy]
      exact fun hv => Nat.lt_irrefl n (hknows.taken y n hv)
    · rw [hagain]
      exact hmore
  · have heffect' := hcopy map.read fun _ => n
    rw [hdest, Option.map_some] at heffect'
    rw [hdest] at heffect
    exact ⟨0, .act ((Body.effect?_routine hop).trans (congrArg some heffect)) heffect'
      hthrow hhandlers
      (hknows.forall₂ hlookup) (hknows.receive dest) hmore⟩

end Step

inductive Leads (callee : Body) (given : List Operand) (returned : Option Operand) (map : ValueMap)
    (n : Nat) (more : List Op) : Exit → Prop where
  | next {target : BlockId} : (callee.block target).phis = [] →
      (∀ names, Knows names map n → ∃ i, Mirrors callee.routine given returned True i (target,
        0) names more) →
      Leads callee given returned map n more (.next target)
  | return {value : Option Operand} : more = [] →
      (value.map fun x => map.lookup x) = returned.map some → Leads callee given returned map n more
        (.return value)

theorem Knows.value_returned (h : Knows names map n) {value : Option Operand}
    (hvalue : (value.map fun x => map.lookup x) = returned.map some) :
    value.map names.value = returned.map some := by
  cases value with
  | none => exact hvalue
  | some x =>
    cases returned with
    | none => cases hvalue
    | some v =>
      rw [Option.map_some, Option.map_some, Option.some.injEq] at hvalue ⊢
      exact h.value x v hvalue

theorem isPlain_of_straight (harg : op.isArgument = false)
    (hmove : ∀ dest, op = .moveException dest → False)
    (hterm : ¬ op.isTerminator = true) : op.isPlain = true := by
  cases op with
  | moveException dest => exact absurd rfl (hmove dest)
  | _ => simp_all [Op.isPlain, Op.isMoveException]

theorem isPlain_of_straightOps {rest : List Op} {exit : Exit}
    (hargs : ∀ op ∈ rest, op.isArgument = false)
    (h : straightOps rest = (ops, exit)) : ∀ op ∈ ops, op.isPlain = true := by
  fun_induction straightOps rest generalizing ops with
  | case1 | case2 | case3 | case5 | case6 =>
    cases h
    simp
  | case4 number rest ih => exact ih (List.forall_mem_cons.1 hargs).2 h
  | case7 op rest _ _ _ hmove hterm ops exit hrest ih =>
    cases h
    obtain ⟨harg, hargs⟩ := List.forall_mem_cons.1 hargs
    exact List.forall_mem_cons.2 ⟨isPlain_of_straight harg hmove hterm, ih hargs hrest⟩

theorem mirrors_straightOps {done rest : List Op} {exit : Exit}
    (hblock : (callee.block b).ops = done ++ rest)
    (hargs : ∀ op ∈ rest, op.isArgument = false) (hhandlers : (callee.block b).handlers = [])
    (h : straightOps rest = (ops, exit)) (hcopies : Copies ops map n out map' n')
    (hknows : Knows names map n) (hleads : Leads callee given returned map' n' more exit) :
    ∃ i, Mirrors callee.routine given returned True i (b, done.length) names (out ++ more) := by
  have hget : ∀ {op : Op} {done tail : List Op}, (callee.block b).ops = done ++ op :: tail →
      (callee.block b).ops[done.length]? = some op := fun heq => by simp [heq]
  fun_induction straightOps rest generalizing done ops out map n names with
  | case1 =>
    cases h
    cases hleads
  | case2 target tail =>
    cases h
    cases hcopies
    cases hleads with
    | next hphis hnext =>
      obtain ⟨i, hmore⟩ := hnext names hknows
      refine ⟨i + 1, .goto (Body.effect?_routine (hget hblock)) (fun x => ?_) hmore⟩
      exact Body.picks_of_not_phi (by simp [Block.phiDests, hphis]) b
  | case3 value tail =>
    cases h
    cases hcopies
    cases hleads with
    | «return» hmore hvalue =>
      subst hmore
      exact ⟨0, .ret (Body.effect?_routine (hget hblock)) (hknows.value_returned hvalue)⟩
  | case4 number rest ih =>
    have hrest : (callee.block b).ops = (done ++ [.line number]) ++ rest := by rw [hblock]; simp
    obtain ⟨i, hmore⟩ := ih hrest (fun op hop => hargs op (List.mem_cons_of_mem _ hop)) h
      hcopies hknows
    rw [List.length_append] at hmore
    exact ⟨i + 1, .line trivial (Body.effect?_routine (hget hblock)) hmore⟩
  | case5 | case6 =>
    cases h
    cases hleads
  | case7 op rest _ _ hline hmove hterm ops exit hrest ih =>
    cases h
    have hplain := isPlain_of_straight (hargs op List.mem_cons_self) hmove hterm
    have hline : op.isLine = false := by
      cases op with
      | line number => exact absurd rfl (hline number)
      | _ => rfl
    have hblock' : (callee.block b).ops = (done ++ [op]) ++ rest := by rw [hblock]; simp
    have hargs' : ∀ op ∈ rest, op.isArgument = false := fun op hop =>
      hargs op (List.mem_cons_of_mem _ hop)
    have hlength : (done ++ [op]).length = done.length + 1 := by simp
    cases hcopies with
    | plain hdest hreads htail =>
      refine mirrors_plain (hget hblock) hplain hline hhandlers hknows hreads hdest fun names' h' =>
        ?_
      rw [← hlength]
      exact ih hblock' hargs' hrest htail h'
    | result hdest hreads htail =>
      refine mirrors_result (hget hblock) hplain hline hhandlers hknows hreads hdest
        fun names' h' => ?_
      rw [← hlength]
      exact ih hblock' hargs' hrest htail h'

theorem goto_mem_of_straightOps {rest : List Op} (h : straightOps rest = (ops, .next target)) :
    .goto target ∈ rest := by
  fun_induction straightOps rest generalizing ops with
  | case1 | case3 | case5 | case6 => cases h
  | case2 => grind
  | case4 number rest ih => exact List.mem_cons_of_mem _ (ih h)
  | case7 op rest _ _ _ _ _ ops exit hrest ih => grind

theorem no_phis_of_straightFrom? (h : straightFrom? callee blocks b = some straight) :
    (callee.block b).phis = [] ∧ (callee.block b).handlers = [] := by
  cases blocks with
  | zero => cases h
  | succ blocks =>
    rw [straightFrom?] at h
    split at h
    · grind
    · cases h

section

variable (hcallee : callee.Checked)
include hcallee

theorem isArgument_of_ne_entry (hb : b ≠ 0) :
    ∀ op ∈ (callee.block b).ops, op.isArgument = false := by
  intro op hop
  obtain ⟨i, hi⟩ := List.mem_iff_getElem?.1 hop
  by_contra harg
  have hplaced := (hcallee.block b (Body.lt_blockCount_of_getElem? hi)).placed i op hi
  exact hb ((Body.checkPlacement_eq_ok.1 hplaced).2.1 (by simpa using harg)).1

theorem ne_entry_of_goto (h : .goto target ∈ (callee.block b).ops) : target ≠ 0 := by
  rintro rfl
  obtain ⟨i, hi⟩ := List.mem_iff_getElem?.1 h
  have hleaves : callee.LeavesAt b i 0 := ⟨_, hi, .inl ⟨rfl, List.mem_singleton_self _⟩⟩
  have hmem := (hcallee.edge_of_leavesAt hleaves).2
  rw [hcallee.entry_preds] at hmem
  cases hmem

theorem isPlain_of_straightFrom? (hb : b ≠ 0)
    (h : straightFrom? callee blocks b = some straight) :
    ∀ op ∈ straight.ops, op.isPlain = true := by
  have hargs := isArgument_of_ne_entry hcallee hb
  fun_induction straightFrom? callee blocks b generalizing straight with
  | case1 | case4 | case5 => cases h
  | case2 blocks b _ hempty ops target hops =>
    rename_i ih
    obtain ⟨rest, hrest, rfl⟩ := Option.map_eq_some_iff.1 h
    have ht := ne_entry_of_goto hcallee (goto_mem_of_straightOps hops)
    rw [List.forall_mem_append]
    exact ⟨isPlain_of_straightOps hargs hops, ih ht hrest (isArgument_of_ne_entry hcallee ht)⟩
  | case3 blocks b _ hempty ops value =>
    rename_i hops
    cases h
    exact isPlain_of_straightOps hargs hops

theorem mirrors_straightFrom? (hb : b ≠ 0)
    (h : straightFrom? callee blocks b = some straight)
    (hcopies : Copies straight.ops map n out map' n') (hknows : Knows names map n)
    (hreturned : (straight.returned.map fun x => map'.lookup x) = returned.map some) :
    ∃ i, Mirrors callee.routine given returned True i (b, 0) names out := by
  have hargs := isArgument_of_ne_entry hcallee hb
  obtain ⟨-, hhandlers⟩ := no_phis_of_straightFrom? h
  fun_induction straightFrom? callee blocks b generalizing straight map n out names with
  | case1 | case4 | case5 => cases h
  | case2 blocks b _ hempty ops target hops =>
    rename_i ih
    obtain ⟨rest, hrest, rfl⟩ := Option.map_eq_some_iff.1 h
    obtain ⟨out₁, out₂, map₁, n₁, rfl, hfirst, hlast⟩ := hcopies.append_inv
    have ht := ne_entry_of_goto hcallee (goto_mem_of_straightOps hops)
    obtain ⟨hphis, hhandlers'⟩ := no_phis_of_straightFrom? hrest
    refine mirrors_straightOps (List.nil_append _).symm hargs hhandlers hops hfirst hknows ?_
    exact .next hphis fun names' hknows' =>
      ih ht hrest hlast hknows' hreturned (isArgument_of_ne_entry hcallee ht) hhandlers'
  | case3 blocks b _ hempty ops value =>
    rename_i hops
    cases h
    rw [← List.append_nil out]
    exact mirrors_straightOps (List.nil_append _).symm hargs hhandlers hops hcopies hknows
      (.return rfl hreturned)

end

/-! ## Arguments -/

theorem straightOps_arguments {args rest : List Op} (hargs : ∀ op ∈ args, op.isArgument = true) :
    straightOps (args ++ rest) = (args ++ (straightOps rest).1, (straightOps rest).2) := by
  induction args with
  | nil => rfl
  | cons op args ih =>
    rw [List.forall_mem_cons] at hargs
    cases op with
    | argument dest index =>
      rw [List.cons_append, straightOps, ih hargs.2]
      · rfl
      all_goals simp
    | _ => cases hargs.1

theorem copyOps_arguments {args : List Op} (hargs : ∀ op ∈ args, op.isArgument = true) :
    copyOps callee (args ++ ops) map body = copyOps callee ops map body := by
  induction args with
  | nil => rfl
  | cons op args ih =>
    rw [List.forall_mem_cons] at hargs
    cases op with
    | argument dest index => rw [List.cons_append, copyOps, ih hargs.2]
    | _ => cases hargs.1

def Takes (given : List Operand) (map : ValueMap) (op : Op) (map' : ValueMap) : Prop :=
  (∀ x v, map'.lookup x = some v → map.lookup x = some v ∨ ∃ i, op = .argument x i ∧
    given[i]? = some v) ∧
  ∀ x i, op = .argument x i → ∃ v, given[i]? = some v

theorem takes_all {f : ValueMap → BlockId × Op → Option ValueMap}
    (hstep : ∀ map e map', f map e = some map' → Takes given map e.2 map')
    {all : List (BlockId × Op)} (h : all.foldlM f map = some map') :
    (∀ x v, map'.lookup x = some v → map.lookup x = some v ∨ ∃ c i, (c, Op.argument x i) ∈ all ∧
      given[i]? = some v) ∧
    ∀ c x i, (c, Op.argument x i) ∈ all → ∃ v, given[i]? = some v := by
  induction all generalizing map with
  | nil => grind
  | cons e all ih =>
    rw [List.foldlM_cons, Option.bind_eq_bind, Option.bind_eq_some_iff] at h
    obtain ⟨next, hnext, h⟩ := h
    obtain ⟨hfirst, htaken⟩ := hstep map e next hnext
    obtain ⟨hrest, htaken'⟩ := ih h
    constructor
    · grind
    · grind

/-- Every value in the map stands for the argument that has its index, and there is one for each. -/
theorem argument_of_argumentMap? (h : argumentMap? callee given = some map) :
    (∀ x v, map.lookup x = some v → ∃ c i, (c, Op.argument x i) ∈ callee.ops ∧ given[i]? = some v) ∧
      ∀ c x i, (c, Op.argument x i) ∈ callee.ops → ∃ v, given[i]? = some v := by
  unfold argumentMap? at h
  refine (takes_all (fun map e map' hstep => ?_) h).imp_left fun hall x v hv =>
    (hall x v hv).resolve_left (by simp)
  obtain ⟨c, op⟩ := e
  simp only at hstep
  split at hstep
  · rename_i dest index
    obtain ⟨v, hv, rfl⟩ := Option.map_eq_some_iff.1 hstep
    constructor
    · grind
    · grind
  · rename_i hnot
    obtain rfl := Option.some.inj hstep
    exact ⟨fun x v hv => .inl hv, fun x i heq => absurd heq (hnot x i)⟩

structure Entered (given : List Operand) (names : Names) (done : List Operand) (n : Nat) :
    Prop where
  value : ∀ (i : Nat) (x : Operand), done[i]? = some x → names.value x = given[i]?
  taken : ∀ x v, names.value x = some v → v < n
  result : names.result = none

theorem entered_nil (hgiven : ∀ v ∈ given, v < n) : Entered given (.ofArguments given) [] n :=
  ⟨fun i x hx => by simp at hx, fun _ v hv => hgiven v (List.mem_of_getElem? hv), rfl⟩

theorem Entered.snoc {done : List Operand} (h : Entered given names done n) {x v : Operand}
    (hnodup : (done ++ [x]).Nodup) (hv : given[done.length]? = some v) (hlt : v < n) :
    Entered given (names.rename x v) (done ++ [x]) n := by
  refine ⟨fun i y hy => ?_, fun y u hu => ?_, h.result⟩
  · rw [List.getElem?_append] at hy
    split at hy
    · have hne : y ≠ x := by grind
      rw [Names.value_rename_of_ne hne]
      exact h.value i y hy
    · rw [List.getElem?_singleton] at hy
      split at hy
      · obtain rfl := Option.some.inj hy
        rw [Names.value_rename_self, show i = done.length by omega, hv]
      · cases hy
  · by_cases hy : y = x
    · rw [hy, Names.value_rename_self] at hu
      exact Option.some.inj hu ▸ hlt
    · rw [Names.value_rename_of_ne hy] at hu
      exact h.taken y u hu

theorem mirrors_arguments {done todo : List Operand} {more : List Op}
    (hops : (callee.block 0).ops = Lift.argumentOps (done ++ todo) ++ more)
    (hnodup : (done ++ todo).Nodup) (hgiven : ∀ v ∈ given, v < n)
    (htaken : ∀ i < (done ++ todo).length, ∃ v, given[i]? = some v)
    (hentered : Entered given names done n)
    (hnext : ∀ names', Entered given names' (done ++ todo) n → ∃ i,
      Mirrors callee.routine given returned True i (0, (done ++ todo).length) names' out) :
    ∃ i, Mirrors callee.routine given returned True i (0, done.length) names out := by
  induction todo generalizing done names with
  | nil => grind
  | cons x todo ih =>
    have hsplit : done ++ x :: todo = (done ++ [x]) ++ todo := by simp
    rw [hsplit] at hops hnodup htaken hnext
    obtain ⟨v, hv⟩ := htaken done.length (by simp)
    have hhere : (callee.block 0).ops[done.length]? = some (.argument x done.length) := by
      rw [hops, ← hsplit]
      simp [Lift.argumentOps, List.zipIdx_append]
    obtain ⟨i, hmore⟩ := ih hops hnodup htaken
      (hentered.snoc (List.nodup_append.1 hnodup).1 hv (hgiven v (List.mem_of_getElem? hv))) hnext
    rw [List.length_append] at hmore
    exact ⟨i + 1, .argument (Body.effect?_routine hhere) hv hmore⟩

/-! ## All together -/

/-- What a copy of a callee gives: new operations on the arguments and values of their own, which
mirror the callee. -/
structure Copied (callee body body' : Body) (given : List Operand) (ops : List Op)
    (returned : Option Operand) : Prop where
  results : dests ops = List.range' body.valueCount (body'.valueCount - body.valueCount)
  reads : ∀ (j : Nat) (op : Op), ops[j]? = some op → ∀ v ∈ op.uses,
    v ∈ dests (ops.take j) ∨ v ∈ given
  gives : ∀ v, returned = some v → v ∈ dests ops ∨ v ∈ given
  plain : ∀ op ∈ ops, op.isPlain = true
  mirrors : ∃ i, Mirrors callee.routine given returned True i (0, 0) (.ofArguments given) ops

theorem isArgument_argumentOps (args : List Operand) :
    ∀ op ∈ Lift.argumentOps args, op.isArgument = true := by
  intro op hop
  obtain ⟨e, -, rfl⟩ := List.mem_map.1 hop
  rfl

theorem straight_of_entry (hentry : (callee.block 0).ops = Lift.argumentOps args ++ [.goto target])
    (h : straight? callee = some straight) :
    ∃ blocks rest, straightFrom? callee blocks target = some rest ∧
      straight = ⟨Lift.argumentOps args ++ rest.ops, rest.returned⟩ := by
  have hops : straightOps (callee.block 0).ops = (Lift.argumentOps args, .next target) := by
    rw [hentry, straightOps_arguments (isArgument_argumentOps args), straightOps, List.append_nil]
  rw [straight?] at h
  cases hcount : callee.blockCount with
  | zero =>
    rw [hcount] at h
    cases h
  | succ blocks =>
    rw [hcount, straightFrom?] at h
    split at h
    · simp only [hops] at h
      obtain ⟨rest, hrest, rfl⟩ := Option.map_eq_some_iff.1 h
      exact ⟨blocks, rest, hrest, rfl⟩
    · cases h

theorem mem_argument_iff (hcallee : callee.Checked) (hpos : 0 < callee.blockCount)
    (hentry : (callee.block 0).ops = Lift.argumentOps args ++ [.goto target])
    {x : Operand} {i : Nat} :
    (∃ c, (c, Op.argument x i) ∈ callee.ops) ↔ args[i]? = some x := by
  have hmem : ∀ c, (c, Op.argument x i) ∈ callee.ops ↔
      c < callee.blockCount ∧ .argument x i ∈ (callee.block c).ops := fun c => by
    simp [Body.ops, Body.mem_blockIds, Prod.ext_iff]
  have hzero : Op.argument x i ∈ (callee.block 0).ops ↔ args[i]? = some x := by
    simp [hentry, Lift.argumentOps, List.mem_zipIdx_iff_getElem?]
  constructor
  · rintro ⟨c, hc⟩
    by_cases hne : c = 0
    · grind
    · exact absurd (isArgument_of_ne_entry hcallee hne _ ((hmem c).1 hc).2)
        (by simp [Op.isArgument])
  · exact fun h => ⟨0, (hmem 0).2 ⟨hpos, hzero.2 h⟩⟩

theorem Entered.knows (hcallee : callee.Checked) (hpos : 0 < callee.blockCount)
    (hentry : (callee.block 0).ops = Lift.argumentOps args ++ [.goto target])
    (hmap : argumentMap? callee given = some map) (h : Entered given names args n) :
    Knows names map n := by
  refine ⟨fun x v hv => ?_, h.taken, h.result⟩
  obtain ⟨c, i, hmem, hi⟩ := (argument_of_argumentMap? hmap).1 x v hv
  exact (h.value i x ((mem_argument_iff hcallee hpos hentry).1 ⟨c, hmem⟩)).trans hi

theorem copy_keeps {result : Option (List Op × Option Operand)}
    (h : copy body callee straight given = (body', result)) :
    ∃ values, body' = { body with values } ∧ body.values.size ≤ values.size := by
  rw [copy] at h
  split at h
  · cases h
    exact ⟨_, rfl, Nat.le_refl _⟩
  · obtain ⟨values, hbody, hle⟩ := copyOps_keeps callee straight.ops ‹_› body
    exact ⟨values, (congrArg Prod.fst h).symm.trans hbody, hle⟩

theorem isSome_of_copy (h : copy body callee straight given = (body', some (ops, returned))) :
    returned.isSome = straight.returned.isSome := by
  rw [copy] at h
  split at h
  · cases h
  · obtain ⟨copied, -, hreturned⟩ := Option.bind_eq_some_iff.1 (congrArg Prod.snd h)
    cases hvalue : straight.returned with
    | none => grind
    | some x =>
      simp only [hvalue, Option.map_eq_some_iff] at hreturned
      obtain ⟨v, -, heq⟩ := hreturned
      cases heq
      rfl

theorem copied_of_copy {types : List ValueType} (hlifted : Lift.Lifted types callee)
    (hstraight : straight? callee = some straight) (hgiven : ∀ v ∈ given, v < body.valueCount)
    (h : copy body callee straight given = (body', some (ops, returned))) :
    Copied callee body body' given ops returned := by
  have hcallee := hlifted.wellFormed.checked hlifted.strict
  have hpos := hlifted.wellFormed.nonempty
  obtain ⟨args, target, hentry, -⟩ := hlifted.entry
  obtain ⟨blocks, rest, hrest, rfl⟩ := straight_of_entry hentry hstraight
  have hgoto : .goto target ∈ (callee.block 0).ops := by simp [hentry]
  have ht := ne_entry_of_goto hcallee hgoto
  have hplain := isPlain_of_straightFrom? hcallee ht hrest
  rw [copy] at h
  split at h
  · cases h
  rename_i map hmap
  obtain ⟨hknown, htaken⟩ := argument_of_argumentMap? hmap
  rw [copyOps_arguments (isArgument_argumentOps args)] at h
  simp only [Prod.mk.injEq, Option.bind_eq_some_iff] at h
  obtain ⟨hbody, ⟨copied, map'⟩, hcopied, hreturned⟩ := h
  have hcopies : Copies rest.ops map body.valueCount copied map' body'.valueCount :=
    copies_of_copyOps (fun op hop => Op.isArgument_of_isPlain (hplain op hop))
      (Prod.ext hbody hcopied)
  have hvalue : copied = ops ∧ (rest.returned.map fun x => map'.lookup x) = returned.map some := by
    cases hvalue : rest.returned with
    | none => grind
    | some x =>
      simp only [hvalue, Option.map_eq_some_iff, Prod.mk.injEq] at hreturned
      obtain ⟨v, hv, rfl, rfl⟩ := hreturned
      exact ⟨rfl, by rw [Option.map_some, hv, Option.map_some]⟩
  obtain ⟨rfl, hvalue⟩ := hvalue
  obtain ⟨hreads, hgives⟩ := hcopies.reads fun x v hv =>
    let ⟨_, _, _, hi⟩ := hknown x v hv
    List.mem_of_getElem? hi
  refine ⟨hcopies.dests_eq, hreads, fun v hv => ?_, hcopies.isPlain hplain, ?_⟩
  · grind
  · have hnodup : args.Nodup := by
      have hdefined :=
        (List.nodup_append.1 (Body.nodup_definedValues_block hcallee.defined_nodup hpos)).2.1
      rw [Block.opDests, hentry, List.filterMap_append] at hdefined
      simpa [Lift.argumentOps, List.filterMap_map, Function.comp_def, Op.dest?]
        using (List.nodup_append.1 hdefined).1
    have hall : ∀ names', Entered given names' args body.valueCount → ∃ i,
        Mirrors callee.routine given returned True i (0, args.length) names' copied := by
      intro names' hentered
      have hknows := hentered.knows hcallee hpos hentry hmap
      obtain ⟨i, hmirrors⟩ := mirrors_straightFrom? hcallee ht hrest hcopies hknows hvalue
      have hat : (callee.block 0).ops[args.length]? = some (.goto target) := by
        simp [hentry, Lift.argumentOps]
      refine ⟨i + 1, .goto (Body.effect?_routine hat) (fun x => ?_) hmirrors⟩
      exact Body.picks_of_not_phi (by simp [Block.phiDests, (no_phis_of_straightFrom? hrest).1]) 0
    have hstart : (callee.block 0).ops = Lift.argumentOps ([] ++ args) ++ [.goto target] := hentry
    refine mirrors_arguments hstart hnodup hgiven (fun i hi => ?_) (entered_nil hgiven) hall
    obtain ⟨c, hc⟩ := (mem_argument_iff hcallee hpos hentry).2 (List.getElem?_eq_getElem hi)
    exact htaken c _ i hc

end Pass.Inlining

end BytecodeOpt
