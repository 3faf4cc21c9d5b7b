import BytecodeOpt.Allocation.Resolution
import BytecodeOpt.Proofs.Allocation.Assignment
import BytecodeOpt.Proofs.Lift.Lifted

/-!
# No register is shared

A scan cuts intervals into pieces of which no two hold one register at the same time, as long as the
bound intervals do not.  Preparing a body adds and redirects jumps and moves caught exceptions, but
it brings in no arguments, so those of a lifted body still arrive in registers of their own and
every assignment for it passes its check.
-/

namespace BytecodeOpt.Allocation

open Ssa Interval Fallible

variable {types : List ValueType} {body body' : Body}

def Holds (body : Body) (op : Op) : Prop := ∃ b, op ∈ (body.block b).ops

def AddsNoArguments (body body' : Body) : Prop :=
  ∀ op, op.isArgument = true → Holds body' op → Holds body op

theorem AddsNoArguments.refl (body : Body) : AddsNoArguments body body := fun _ _ h => h

theorem AddsNoArguments.trans {body₁ body₂ body₃ : Body} (h : AddsNoArguments body₁ body₂)
    (h' : AddsNoArguments body₂ body₃) : AddsNoArguments body₁ body₃ :=
  fun op hop hin => h op hop (h' op hop hin)

theorem AddsNoArguments.of_blocks (h : ∀ b, ∀ op ∈ (body'.block b).ops, op.isArgument = true →
    op ∈ (body.block b).ops) :
    AddsNoArguments body body' := by
  rintro op hop ⟨b, hb⟩
  exact ⟨b, h b op hb hop⟩

theorem addsNoArguments_modifyBlock (body : Body) (b : BlockId) {f : Block → Block}
    (hf : ∀ block, ∀ op ∈ (f block).ops, op.isArgument = true → op ∈ block.ops) :
    AddsNoArguments body (body.modifyBlock b f) := by
  refine .of_blocks fun c op hop hargument => ?_
  rw [Body.block_modifyBlock] at hop
  split at hop
  · exact hf _ op hop hargument
  · exact hop

theorem addsNoArguments_addBlock (body : Body) {block : Block}
    (h : ∀ op ∈ block.ops, op.isArgument = false) : AddsNoArguments body (body.addBlock block) := by
  refine .of_blocks fun c op hop hargument => ?_
  rw [Body.block_addBlock] at hop
  split at hop
  · grind
  · exact hop

theorem AddsNoArguments.foldl {α : Type} {f : Body → α → Body}
    (hf : ∀ body x, AddsNoArguments body (f body x))
    (xs : List α) (body : Body) : AddsNoArguments body (xs.foldl f body) :=
  List.foldlRecOn xs f (.refl body) fun body h x _ => h.trans (hf body x)

theorem addsNoArguments_insertPad (handler : BlockId) (catches : Bool) (body : Body)
    (pred : BlockId) (index : Nat) :
    AddsNoArguments body (insertPad handler catches body pred index) := by
  unfold insertPad
  refine .trans ?_ (addsNoArguments_modifyBlock _ handler fun _ _ hop _ => hop)
  refine .trans ?_ (addsNoArguments_modifyBlock _ pred fun _ _ hop _ => hop)
  split
  · exact addsNoArguments_addBlock body (by simp [Op.isArgument])
  · exact addsNoArguments_addBlock body (by simp [Op.isArgument])

theorem addsNoArguments_insertPads (body : Body) (handler : BlockId) :
    AddsNoArguments body (insertPads body handler) := by
  have hpads : ∀ (catches : Bool) (preds : List (BlockId × Nat)) (body : Body),
      AddsNoArguments body
        (preds.foldl (fun body e => insertPad handler catches body e.1 e.2) body) :=
    fun catches => .foldl fun body e => addsNoArguments_insertPad handler catches body e.1 e.2
  unfold insertPads
  simp only
  split
  · exact hpads _ _ body
  · refine .trans ?_
      (addsNoArguments_modifyBlock _ handler fun _ _ hop _ => List.mem_of_mem_drop hop)
    exact hpads _ _ body

theorem addsNoArguments_insertLandingPads (body : Body) :
    AddsNoArguments body (insertLandingPads body).1 := by
  refine List.foldlRecOn (motive := fun acc : Body × Nat => AddsNoArguments body acc.1)
    body.blockIds padHandler
    (.refl body) fun acc h handler _ => h.trans ?_
  unfold padHandler
  split
  · exact addsNoArguments_insertPads acc.1 handler
  · exact .refl acc.1

theorem addsNoArguments_splitCriticalEdges (body : Body) :
    AddsNoArguments body body.splitCriticalEdges := by
  refine .foldl (fun body e => ?_) _ body
  unfold Body.splitEdge
  refine .trans ?_ (addsNoArguments_modifyBlock _ e.2 fun _ _ hop _ => hop)
  have hadd : AddsNoArguments body (body.addBlock { ops := [.goto e.2], preds := [e.1] }) :=
    addsNoArguments_addBlock body (by simp [Op.isArgument])
  refine hadd.trans (addsNoArguments_modifyBlock _ e.1 fun block op hop hargument => ?_)
  unfold Block.mapTerminator at hop
  split at hop
  · rename_i last hlast
    rcases List.mem_append.1 hop with hop | hop
    · exact List.mem_of_mem_dropLast hop
    · have hterminator : last.isTerminator = true := (Option.filter_eq_some_iff.1 hlast).2
      rw [List.mem_singleton.1 hop] at hargument
      cases last <;> simp_all [Op.isTerminator, Op.mapTargets, Op.isArgument]
  · exact hop

theorem addsNoArguments_prepare (body : Body) : AddsNoArguments body (prepare body).1 := by
  unfold prepare
  split
  · exact .refl body
  · exact (addsNoArguments_insertLandingPads body).trans (addsNoArguments_splitCriticalEdges _)

/-! ## Arguments of lifted bodies -/

/-- The arguments of a lifted body are those of its method, each once. -/
theorem exists_arguments_of_lifted (h : Lift.Lifted types body)
    (hadds : AddsNoArguments body body') :
    ∃ dests : List Operand, ∀ b v index, (b, .argument v index) ∈ body'.ops →
      dests[index]? = some v := by
  obtain ⟨dests, target, hops, -⟩ := h.entry
  refine ⟨dests, fun b v index hmem => ?_⟩
  obtain ⟨c, hc⟩ := hadds (.argument v index) rfl ⟨b, (Body.mem_ops.1 hmem).2⟩
  obtain ⟨i, hi⟩ := List.mem_iff_getElem?.1 hc
  obtain ⟨rfl, -⟩ := h.wellFormed.arguments c (Body.lt_blockCount_of_mem_ops hc) i _ hi rfl
  rw [hops, List.mem_append, List.mem_singleton] at hc
  simpa [Lift.argumentOps, List.mem_zipIdx_iff_getElem?] using hc

theorem argumentsApart_of_lifted (h : Lift.Lifted types body) (hadds : AddsNoArguments body body') :
    ArgumentsApart body' := by
  obtain ⟨dests, hdests⟩ := exists_arguments_of_lifted h hadds
  intro b c v w index hv hw
  exact Option.some.inj ((hdests b v index hv).symm.trans (hdests c w index hw))

theorem assign_of_allocatable (h : checkAllocatable body = .ok ()) (ins maxRegisters : Nat) :
    assign body ins maxRegisters = ((insertLandingPads body).1.splitCriticalEdges,
      Assignment.ofPrepared (insertLandingPads body).1.splitCriticalEdges ins maxRegisters) := by
  simp only [assign, prepare, h]
  rfl

variable {prepared : Body} {ins maxRegisters : Nat} {a : Assignment}

theorem check_of_assign (h : Lift.Lifted types body)
    (hassign : assign body ins maxRegisters = (prepared, .ok a)) :
    a.check = .ok () := by
  have ha : ((prepare body).2.bind fun () =>
      Assignment.ofPrepared (prepare body).1 ins maxRegisters) = .ok a := congrArg Prod.snd hassign
  obtain ⟨_, -, hprepared⟩ := bind_eq_ok.1 ha
  exact Assignment.check_of_ofPrepared
    (argumentsApart_of_lifted h (addsNoArguments_prepare body)) hprepared

theorem code_of_assign (h : Lift.Lifted types body)
    (hassign : assign body ins maxRegisters = (prepared, .ok a)) (checks : Bool) :
    (allocate body ins maxRegisters checks).code = resolve prepared a ins maxRegisters := by
  unfold allocate
  rw [hassign]
  cases checks with
  | false => rfl
  | true =>
    simp only [if_true, check_of_assign h hassign]
    rfl

/-! ## The separation of pieces -/

/-- The scan ends by itself, whatever it is given to spend beyond its bound, and its pieces are
parts of the intervals that get along.  For code that was lifted the check of an assignment never
fails. -/
theorem pieces_separated :
    (∀ (setting : ScanSetting) (intervals : List Interval),
      (∀ last position, setting.splitPosition? last = some position → position ≤ last) →
      Scan.Proper intervals →
      (∀ start, intervals.foldlM (Scan.add setting) { opened := setting.ins } = .ok start →
        ∀ extra, Scan.placeAll setting (totalOf Interval.size intervals + 1 + extra) start =
          Scan.placeAll setting (totalOf Interval.size intervals + 1) start) ∧
      ∀ s, Scan.run setting intervals = .ok s → s.waiting = [] ∧
        Scan.Sound intervals setting.maxRegisters s) ∧
    ∀ (m : Method) (body prepared : Body) (ins maxRegisters : Nat) (a : Assignment),
      lift? m = .ok (some body) → assign body ins maxRegisters = (prepared, .ok a) →
        a.check = .ok () := by
  refine ⟨fun setting intervals hsplit hproper => ⟨?_, ?_⟩, ?_⟩
  · exact fun start hstart extra => Scan.run_add_fuel hsplit hproper hstart extra
  · exact fun s hrun => Scan.run_sound hsplit hproper hrun
  · exact fun m body prepared ins maxRegisters a hlift hassign =>
      check_of_assign (lifted_of_lift? hlift) hassign

def crossing : List Interval :=
  [{ value := 0, ranges := [⟨6, 8⟩], register := some 0, isFixed := true },
    { value := 1, ranges := [⟨2, 4⟩], register := some 1, isFixed := true },
    { value := 2, ranges := [⟨0, 20⟩] }]

def crossingSetting : ScanSetting where
  ins := 2
  maxRegisters := 2
  hints := []
  splitPosition? := some

def loopMethod : Method where
  id := ⟨⟨"p.A"⟩, "f", ⟨⟨"int"⟩, [⟨"int"⟩]⟩⟩
  flags := { isStatic := true }
  code := some
    { registers := 2
      ins := 1
      instructions := [.const 1 (.int 0), .branch .eq 0 none 5, .binary .add .int 1 1 0,
        .binary .sub .int 0 0 1, .goto 1, .ret (some 1)]
      tries := [] }

theorem pieces_separated_crossing :
    (∃ s, Scan.run crossingSetting crossing = .ok s ∧ s.splits = 1 ∧ s.waiting = [] ∧
      Scan.Sound crossing 2 s) ∧
    ∃ body prepared a, lift? loopMethod = .ok (some body) ∧
      assign body 1 16 = (prepared, .ok a) ∧ a.check = .ok () := by
  constructor
  · have hsplit : ∀ last position, crossingSetting.splitPosition? last = some position →
        position ≤ last := fun last position h => Nat.le_of_eq (Option.some.inj h).symm
    have hproper : Scan.Proper crossing := by
      refine ⟨by decide, ?_, by decide⟩
      simp [crossing, Ordered]
    obtain ⟨s, hrun, hsplits⟩ := exists_of_succeeds
      (x := Scan.run crossingSetting crossing) (p := fun s => s.splits == 1) (by decide +kernel)
    exact ⟨s, hrun, by simpa using hsplits, (pieces_separated.1 _ _ hsplit hproper).2 s hrun⟩
  · obtain ⟨found, hlift, hfound⟩ := exists_of_succeeds (x := lift? loopMethod)
      (p := fun found => found.any fun body => succeeds (fun _ => true) (assign body 1 16).2)
      (by decide +kernel)
    obtain ⟨body, rfl, hassigned⟩ := (Option.any_eq_true _ _).1 hfound
    obtain ⟨a, ha, -⟩ := exists_of_succeeds hassigned
    have hassign : assign body 1 16 = ((assign body 1 16).1, .ok a) := Prod.ext rfl ha
    exact ⟨body, _, a, hlift, hassign, pieces_separated.2 _ _ _ _ _ _ hlift hassign⟩

end BytecodeOpt.Allocation
