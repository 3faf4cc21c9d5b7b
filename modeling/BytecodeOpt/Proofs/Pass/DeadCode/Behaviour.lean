import BytecodeOpt.Proofs.Pass.DeadCode.FixedPoint

/-!
# Running without dead code

A run of the original that raises nothing where an operation was dropped is a run of the result, as
far as the operations that are left are concerned.  What the dropped ones did to the world must not
matter to the others, which is left to the host to say.
-/

namespace BytecodeOpt

open Execution

namespace Pass.DeadCode

open Ssa Ssa.Body

variable {V W : Type} {host : Host V W} {body : Body} {b : BlockId} {op : Op}

/-- The operation is there only for a result that `result` does not have. -/
def Dropped (result : Body) (op : Op) : Prop :=
  op.hasSideEffects = false ∧ ∀ d, op.dest? = some d → d ∉ result.definedValues

theorem dropped_mapUses (result : Body) (f : Operand → Operand) (op : Op) :
    Dropped result (op.mapUses f) ↔ Dropped result op := by
  simp [Dropped, Op.dest?_mapUses]

/-- What the sweep drops. -/
theorem dropped_swept (h : body.Checked) (hop : op ∈ (body.block b).ops) :
    Dropped (swept body) op ↔ isKept (marked body) op = false := by
  rw [← Bool.not_eq_true, isKept_iff]
  constructor
  · rintro ⟨hnone, hgone⟩ (hroot | ⟨d, hdest, hlive⟩)
    · cases hroot.symm.trans hnone
    · refine hgone d hdest
        (mem_definedValues_iff.2 (.inr ⟨b, _, (mem_ops_swept h).2 ⟨op, hop, ?_, rfl⟩, ?_⟩))
      · exact isKept_iff.2 (.inr ⟨d, hdest, hlive⟩)
      · exact dest?_dropDeadResult_of_live hdest hlive
  · intro hnot
    have hlive : ∀ d, op.dest? = some d → ¬ marked body d = true := fun d hdest hlive =>
      hnot (.inr ⟨d, hdest, hlive⟩)
    refine ⟨Bool.eq_false_iff.2 fun hroot => hnot (.inl hroot), fun d hdest hmem => ?_⟩
    obtain ⟨i, hi⟩ := List.mem_iff_getElem?.1 hop
    have hsite : body.DefinedAt d (.op b i) := ⟨lt_blockCount_of_getElem? hi, op, hi, hdest⟩
    rcases mem_definedValues_iff.1 hmem with ⟨c, phi, hphi, rfl⟩ | ⟨c, op', hop', hdest'⟩
    · exact hlive _ hdest ((marked_iff h).2 ((mem_phis_swept h).1 hphi).2)
    · -- only one operation defines the value, and that was not kept
      obtain ⟨old, hold, hkept, rfl⟩ := (mem_ops_swept h).1 hop'
      obtain ⟨j, hj⟩ := List.mem_iff_getElem?.1 hold
      have hother : body.DefinedAt d (.op c j) :=
        ⟨lt_blockCount_of_getElem? hj, old, hj, dest?_dropDeadResult hdest'⟩
      cases h.site_unique hsite hother
      obtain rfl := Option.some.inj (hi.symm.trans hj)
      exact hnot (isKept_iff.1 hkept)

/-- Joining blocks and closing the gaps shows nothing and defines the same values. -/
theorem mergeBlocks_sameBehaviour (h : body.Checked)
    (hchoices : ∀ b, ∀ phi ∈ (body.block b).phis, onlyChoice? phi = none) (method : MethodId) :
    (∀ (host : Host V W) (args : Nat → V) (w : W) (m : Memory V),
      SameBehaviour (body.routine.Step host args)
      ((mergeBlocks method body).1.routine.Step host args) (some ⟨(0, 0), w, m⟩)
        (some ⟨(0, 0), w, m⟩)) ∧
    ∀ v, v ∈ (mergeBlocks method body).1.definedValues ↔ v ∈ body.definedValues := by
  obtain ⟨merged, heq, hw, ⟨hsame, hvalues⟩, -⟩ := mergeBlocks_induction
    (motive := fun merged => (∀ (host : Host V W) (args : Nat → V) (w : W) (m : Memory V),
      SameBehaviour (body.routine.Step host args) (merged.routine.Step host args)
        (some ⟨(0, 0), w, m⟩)
        (some ⟨(0, 0), w, m⟩)) ∧ ∀ v, v ∈ merged.definedValues ↔ v ∈ body.definedValues) h
          hchoices method
    (fun merged b next hw hm ⟨hsame, hvalues⟩ =>
      ⟨fun host args w m => (hsame host args w m).trans (hm.sameBehaviour_merge hw host args w m),
        fun v => (hm.regrouped hw).mem_definedValues.trans (hvalues v)⟩)
    ⟨fun host args w m => .refl .., fun _ => Iff.rfl⟩
  rw [heq]
  obtain ⟨f, -, hcompacted⟩ := hw.sound.exists_compacted
  exact ⟨fun host args w m => (hsame host args w m).trans
    (hw.sound.removeUnreachable_inStep host args w m).sameBehaviour,
    fun v => (regrouped_compacted hcompacted hw).mem_definedValues.trans (hvalues v)⟩

/-- Dropping dead code gives a body that passes the check.  Every run of the original in which no
dropped operation raises an exception is a run of the result: the other operations come in the same
order, on the same values, with the same decisions and the same end. -/
theorem run_follows (h : body.check = .ok ()) (method : MethodId) (maxRounds : Nat) :
    let result := (run method maxRounds body).body
    result.check = .ok () ∧ ∀ (V W : Type) (host : Host V W) (R : W → W → Prop) (args : Nat → V)
      (w u : W) (m : Memory V),
      host.Overlooks R → R w u →
      Follows (body.routine.Sparing (At body (Dropped result)) host args)
        (result.routine.Step host args)
        (some ⟨(0, 0), w, m⟩) (some ⟨(0, 0), u, m⟩) := by
  intro result
  have hchecked := check_eq_ok_iff.1 h
  have hresult : result = (round method body).1 := body_run hchecked method maxRounds
  refine ⟨check_eq_ok_iff.2 (hresult ▸ (settled_round hchecked method).checked),
    fun V W host R args w u m hover hworld => ?_⟩
  have hresolved := checked_resolvePhis hchecked (phiCount body)
  have hchoices := findTrivialPhi?_eq_none.1 (findTrivialPhi?_resolvePhis (phiCount body)
    (Nat.le_refl (phiCount body)))
  obtain ⟨hsame, hvalues⟩ := mergeBlocks_sameBehaviour (V := V) (W := W) (checked_swept hresolved)
    (fun b phi hphi => hchoices b phi ((mem_phis_swept hresolved).1 hphi).1) method
  have hdropped : ∀ op, Dropped result op ↔ Dropped (swept (resolvePhis (phiCount body) body).1)
      op := fun op => by
    rw [hresult]
    exact and_congr_right fun _ => forall₂_congr fun d _ => not_congr (hvalues d)
  have hresolve := resolvePhis_follows hchecked (dropped_mapUses result)
    (phiCount body) host args w m
  have hsimulates : Simulates
      ((resolvePhis (phiCount body) body).1.routine.Sparing (At (resolvePhis (phiCount body) body).1
        (Dropped result)) host args)
      ((swept (resolvePhis (phiCount body) body).1).routine.Step host args)
        (Abreast (resolvePhis (phiCount body) body).1 R) :=
    simulates_swept hresolved hover fun b op hop =>
      (hdropped op).trans (dropped_swept hresolved hop)
  have hsweep := hsimulates.follows (a := some ⟨(0, 0), w, m⟩) (b := some ⟨(0, 0), u, m⟩)
    (.inr ⟨0, 0, w, u, m, m, hworld, ⟨rfl, fun _ _ => rfl⟩, rfl, rfl, rfl⟩)
  rw [hresult] at hresolve hsweep ⊢
  exact (hresolve.trans hsweep).trans (hsame host args u m).follows

/-- A host on which every action can end in any way. -/
def freeHost : Host Int Unit where
  performs _ _ _ _ _ := True
  holds _ left _ := left == 0
  isKey value key := value == key
  isInstance _ _ := true

theorem run_follows_constantLoop :
    constantLoop.check = .ok () ∧ (run constantLoop.method 3 constantLoop).body.check = .ok () ∧
    Follows (constantLoop.routine.Sparing
      (At constantLoop (Dropped (run constantLoop.method 3 constantLoop).body)) freeHost
        fun _ => 0) ((run constantLoop.method 3 constantLoop).body.routine.Step freeHost fun _ => 0)
      (some ⟨(0, 0), (), ⟨fun _ => 0, 0, 0⟩⟩) (some ⟨(0, 0), (), ⟨fun _ => 0, 0, 0⟩⟩) := by
  have hcheck : constantLoop.check = .ok () := by decide +kernel
  have hover : freeHost.Overlooks (fun _ _ => True) :=
    ⟨fun _ _ _ => trivial, fun _ _ => ⟨(), trivial, trivial⟩⟩
  obtain ⟨hresult, hfollows⟩ := run_follows hcheck constantLoop.method 3
  exact ⟨hcheck, hresult, hfollows Int Unit freeHost _ _ () () _ hover trivial⟩

end Pass.DeadCode

end BytecodeOpt
