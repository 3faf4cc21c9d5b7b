import BytecodeOpt.Allocation.Numbering
import BytecodeOpt.Proofs.Ssa.Liveness

/-!
# Positions of blocks

The positions of a block follow those of the blocks before it in the order, without gaps.
-/

namespace BytecodeOpt.Allocation

open Ssa

def extent (body : Body) (b : BlockId) : Nat := 2 * ((body.block b).ops.length + 1)

namespace Numbering

def place (body : Body) (s : Nat × Array Nat × Array Nat) (b : BlockId) :
    Nat × Array Nat × Array Nat :=
  (s.1 + extent body b, s.2.1.setIfInBounds b s.1, s.2.2.setIfInBounds b (s.1 + extent body b))

theorem foldl_place (body : Body) {count : Nat} {order : List BlockId} (hnodup : order.Nodup)
    (horder : ∀ b ∈ order, b < count) {s : Nat × Array Nat × Array Nat}
    (hstarts : s.2.1.size = count) (hstops : s.2.2.size = count) :
    (∀ b, b ∉ order → (order.foldl (place body) s).2.1.getD b 0 = s.2.1.getD b 0 ∧
      (order.foldl (place body) s).2.2.getD b 0 = s.2.2.getD b 0) ∧
    ∀ before b after, order = before ++ b :: after →
      (order.foldl (place body) s).2.1.getD b 0 = s.1 + totalOf (extent body) before ∧
      (order.foldl (place body) s).2.2.getD b 0 =
        s.1 + totalOf (extent body) before + extent body b := by
  induction order generalizing s with
  | nil => simp
  | cons c order ih =>
    obtain ⟨hc, hnodup⟩ := List.nodup_cons.1 hnodup
    have hlt := horder c List.mem_cons_self
    obtain ⟨hother, hplaced⟩ := ih hnodup (fun b hb => horder b (List.mem_cons_of_mem _ hb))
      (s := place body s c) (by simpa [place] using hstarts) (by simpa [place] using hstops)
    refine ⟨fun b hb => ?_, fun before b after heq => ?_⟩
    · obtain ⟨hne, hb⟩ := not_or.1 (List.mem_cons.not.1 hb)
      obtain ⟨hstart, hstop⟩ := hother b hb
      rw [List.foldl_cons, hstart, hstop, place, Table.getD_setIfInBounds, Table.getD_setIfInBounds,
        if_neg (fun h => hne h.1.symm), if_neg (fun h => hne h.1.symm)]
      exact ⟨rfl, rfl⟩
    · cases before with
      | nil =>
        cases heq
        obtain ⟨hstart, hstop⟩ := hother c hc
        rw [List.foldl_cons, hstart, hstop, place, Table.getD_setIfInBounds,
          Table.getD_setIfInBounds, if_pos ⟨rfl, hstarts ▸ hlt⟩, if_pos ⟨rfl, hstops ▸ hlt⟩]
        simp
      | cons d before =>
        rw [List.cons_append] at heq
        cases heq
        obtain ⟨hstart, hstop⟩ := hplaced before b after rfl
        rw [List.foldl_cons, hstart, hstop, place, totalOf_cons]
        constructor <;> omega

variable {body : Body}

theorem blockStart_ofBody {before after : List BlockId} {b : BlockId}
    (h : body.reversePostorder = before ++ b :: after) :
    (ofBody body).blockStart b = totalOf (extent body) before ∧
      (ofBody body).blockStop b = totalOf (extent body) before + extent body b := by
  have hplaced := (foldl_place body (body.graph.nodup_reversePostorder 0)
    (fun b hb => body.size_graph ▸ Digraph.lt_size_of_mem_reversePostorder hb)
    (s := (0, Array.replicate body.blockCount 0, Array.replicate body.blockCount 0))
    (by simp) (by simp)).2 before b after h
  rw [Nat.zero_add] at hplaced
  exact hplaced

theorem blockStop_eq {b : BlockId} (h : b ∈ body.reversePostorder) :
    (ofBody body).blockStop b = (ofBody body).blockStart b + extent body b := by
  obtain ⟨before, after, heq⟩ := List.append_of_mem h
  obtain ⟨hstart, hstop⟩ := blockStart_ofBody heq
  rw [hstart, hstop]

theorem blockStop_le_blockStart {before after : List BlockId} {b c : BlockId}
    (h : body.reversePostorder = before ++ c :: after) (hb : b ∈ before) :
    (ofBody body).blockStop b ≤ (ofBody body).blockStart c := by
  obtain ⟨first, second, rfl⟩ := List.append_of_mem hb
  have hb' : body.reversePostorder = first ++ b :: (second ++ c :: after) := by
    simpa using h
  rw [(blockStart_ofBody h).1, (blockStart_ofBody hb').2, totalOf_append, totalOf_cons]
  omega

end Numbering

end BytecodeOpt.Allocation
