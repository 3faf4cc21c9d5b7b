import BytecodeOpt.Proofs.Pass.ConstantFolding.Edits

/-!
# Restoring the form by dropping blocks

An edit may leave blocks that cannot be reached, and phis that still count them.  Where nothing else
is wrong with a body, dropping these blocks makes it pass the check again, and control takes the
same way as before.
-/

namespace BytecodeOpt.Ssa.Body

open Execution Pass.ConstantFolding

/-- Dropping what cannot be reached leaves a body that passes the check: the other blocks in their
order, under new numbers throughout and without the edges that came from dropped blocks.  It runs as
before, and nothing is left to drop. -/
theorem removeUnreachable_restores {body : Body} (hs : body.Sound) :
    body.removeUnreachable.check = .ok () ∧
      (∃ f, StrictMonoOn f {b | body.Reached b} ∧ Compacted body body.removeUnreachable f) ∧
      (∀ (V W : Type) (host : Host V W) (args : Nat → V) (w : W) (m : Memory V),
        SameBehaviour (body.routine.Step host args) (body.removeUnreachable.routine.Step host args)
          (some ⟨(0, 0), w, m⟩) (some ⟨(0, 0), w, m⟩)) ∧
      body.removeUnreachable.hasUnreachable = false := by
  have hchecked := hs.checked_removeUnreachable
  exact ⟨check_eq_ok_iff.2 hchecked, hs.exists_compacted,
    fun V W host args w m => (hs.removeUnreachable_inStep host args w m).sameBehaviour,
    not_hasUnreachable fun b hb => (hchecked.block b hb).reachable⟩

/-- A branch on a constant that decides which value a phi picks, before a quotient by zero. -/
def decidedBranch : Body where
  method := ⟨⟨"p.A"⟩, "f", ⟨.int, []⟩⟩
  blocks := #[
    { ops := [.const 0 (.int 7), .binary .sub .int 1 0 0, .branch .eq 1 none 1 2] },
    { phis := [⟨4, [0, 2]⟩], ops := [.unary .neg 3 0, .binary .div .int 5 3 1, .ret (some 4)],
      preds := [0, 2] },
    { ops := [.const 2 .null, .goto 1], preds := [0] }]
  values := #[.int, .int, .reference, .int, .int, .int]

/-- The block behind the side not taken still counts as a predecessor of the phi. -/
theorem removeUnreachable_restores_foldedBranch :
    (decidedBranch.foldBranch 0 1).Sound ∧ (decidedBranch.foldBranch 0 1).hasUnreachable = true ∧
      (decidedBranch.foldBranch 0 1).removeUnreachable.check = .ok () := by
  have hchecked : decidedBranch.Checked := check_eq_ok_iff.1 (by decide +kernel)
  have hunmixed : decidedBranch.Unmixed := by
    unfold Unmixed
    decide
  have hlast : (decidedBranch.block 0).terminator? = some (.branch .eq 1 none 1 2) := by decide
  have hsound : (decidedBranch.foldBranch 0 1).Sound :=
    ((Tidy.of_checked hchecked).exchanged (exchanged_foldBranch (.of_checked hchecked) hlast
      (by decide) hunmixed)).sound
  exact ⟨hsound, by decide +kernel, (removeUnreachable_restores hsound).1⟩

end BytecodeOpt.Ssa.Body
