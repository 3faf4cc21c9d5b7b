import BytecodeOpt.Proofs.Lift.Execution

/-!
# Lifted code behaves as the code

A body that was lifted passes the check, none of its phis is trivial, and it does what the register
code does: the same actions on the same values, the same branches, the same end.
-/

namespace BytecodeOpt.Ssa

open Execution

namespace Lift

variable {src : Source} {types : List ValueType} {s : State} {body : Body}

theorem Complete.sameBehaviour_removed (hsound : Layout.Sound src.code src.layout)
    (h : Complete src types s)
    (hrun : removeTrivialPhis s.body = .ok body) {V W : Type} (host : Host V W)
    (args : Nat → V) (w : W)
    {m m' : Memory V} (hargs : ∀ index < types.length, m.store index = args index)
    (hcaught : m.caught = m'.caught) :
    SameBehaviour (src.code.routine.Step host args) (body.routine.Step host args) (some ⟨0, w, m⟩)
      (some ⟨(0, 0), w, m'⟩) := by
  obtain ⟨r, htrivial, -, rfl⟩ :=
    removeTrivialPhis_eq_ok (nodup_phiDests (h.wellFormed hsound).defined_nodup) hrun
  exact (h.sameBehaviour hsound host args w hargs hcaught).trans
    ((htrivial.rewritable (h.wellFormed hsound)).sameBehaviour_rewrite host args w m')

theorem Complete.not_trivial (hsound : Layout.Sound src.code src.layout) (h : Complete src types s)
    (hrun : removeTrivialPhis s.body = .ok body) (b : BlockId) :
    ∀ phi ∈ (body.block b).phis, ¬ phi.IsTrivial := by
  obtain ⟨r, htrivial, hexhausted, rfl⟩ :=
    removeTrivialPhis_eq_ok (nodup_phiDests (h.wellFormed hsound).defined_nodup) hrun
  exact not_trivial_rewrite htrivial hexhausted b

end Lift

/-- Lifted code passes the check, has no trivial phi, and whatever the actions mean and the
arguments are, the same is seen of it as of the register code. -/
theorem lifted_behaves_as_code (m : Method) (body : Body) (h : lift? m = .ok (some body)) :
    ∃ code, m.code = some code ∧ body.check = .ok () ∧
      (∀ b, ∀ phi ∈ (body.block b).phis, ¬ phi.IsTrivial) ∧
      ∀ (V W : Type) (host : Host V W) (args : Nat → V) (w : W) (start : Memory V)
        (values : Operand → V), (∀ index < code.ins, start.store index = args index) →
        SameBehaviour (code.routine.Step host args) (body.routine.Step host args)
          (some ⟨0, w, start⟩) (some ⟨(0, 0), w, { start with store := values }⟩) := by
  obtain ⟨code, hcode, hlift⟩ := liftCode_of_lift? h
  obtain ⟨layout, done, hsound, hcomplete, hremove, hins, -⟩ := complete_of_liftCode hlift
  have hlifted := Lift.lifted_of_complete hsound hcomplete hremove
  refine ⟨code, hcode, ?_, hcomplete.not_trivial hsound hremove, ?_⟩
  · exact Body.check_eq_ok_iff.2 (hlifted.wellFormed.checked hlifted.strict)
  · intro V W host args w start values hargs
    refine hcomplete.sameBehaviour_removed hsound hremove host args w ?_ rfl
    rw [length_argumentTypes, ← hins]
    exact hargs

/-- Calls until the answer is zero, and returns the last one if a call fails. -/
def retryCode : Code where
  registers := 3
  ins := 1
  instructions := [.const 1 (.int 0), .invoke .static ⟨⟨"lib.L"⟩, "g", ⟨⟨"int"⟩, [⟨"int"⟩]⟩⟩ [0],
    .moveResult 1, .branch .ne 1 none 1, .ret (some 1), .moveException 2, .ret (some 1)]
  tries := [⟨1, 3, [⟨none, 5⟩]⟩]

def retry : Method where
  id := ⟨⟨"p.A"⟩, "f", ⟨⟨"int"⟩, [⟨"int"⟩]⟩⟩
  flags := { isStatic := true }
  code := some retryCode

/-- A world that counts calls: the first answers 5, all others fail with 9. -/
def failingHost : Host Nat Nat where
  performs calls action _ outcome calls' :=
    match action with
    | .invoke .. => calls' = calls + 1 ∧
        outcome = if calls = 0 then .completes 5 else .raises 9
    | _ => calls' = calls ∧ outcome = .completes 0
  holds _ left _ := left != 0
  isKey _ _ := false
  isInstance _ _ := false

/-- The handler sees the answer to the first call, which is what the phi in front of the second call
picked. -/
theorem lifted_behaves_as_code_retry :
    ∃ body, lift? retry = .ok (some body) ∧ (body.block 2).phis.length = 1 ∧ body.check = .ok () ∧
      ∃ b, Run (body.routine.Step failingHost fun _ => 3) (some ⟨(0, 0), 0, ⟨fun _ => 0, 0, 0⟩⟩)
        [.performed (.const (.int 0)) [] (.completes 0),
          .performed (.invoke .static ⟨⟨"lib.L"⟩, "g", ⟨⟨"int"⟩, [⟨"int"⟩]⟩⟩) [3] (.completes 5),
          .branched .ne 5 none true,
          .performed (.invoke .static ⟨⟨"lib.L"⟩, "g", ⟨⟨"int"⟩, [⟨"int"⟩]⟩⟩) [3] (.raises 9),
          .caught none 9, .returned (some 5)] b := by
  obtain ⟨found, hlift, hfound⟩ := Fallible.exists_of_succeeds (x := lift? retry)
    (p := fun found => found.any fun body => (body.block 2).phis.length == 1) (by decide +kernel)
  obtain ⟨body, rfl, hphis⟩ := (Option.any_eq_true _ _).1 hfound
  obtain ⟨code, hcode, hcheck, -, hsame⟩ := lifted_behaves_as_code retry body hlift
  cases hcode
  refine ⟨body, hlift, by simpa using hphis, hcheck, ?_⟩
  refine ((hsame Nat Nat failingHost (fun _ => 3) 0 ⟨fun _ => 3, 0, 0⟩ (fun _ => 0) fun _ _ =>
    rfl).seen _).1 ?_
  have hrun : Run (retryCode.routine.Step failingHost fun _ => 3)
      (some ⟨0, 0, ⟨fun _ => 3, 0, 0⟩⟩) _ _ :=
    .head (.next rfl (.completes (by decide) ⟨rfl, rfl⟩)) <|
    .head (.next rfl (.completes (by decide) ⟨rfl, rfl⟩)) <|
    .head (.next rfl .result) <|
    .head (.jump rfl (.branch rfl)) <|
    .head (.caught rfl (.raises rfl ⟨rfl, rfl⟩) rfl) <|
    .head (.next rfl .caught) <|
    .head (.halt rfl .ret) <| .refl _
  exact ⟨_, hrun⟩

end BytecodeOpt.Ssa
