import BytecodeOpt.Compiler
import BytecodeOpt.Proofs.CallGraph.Schedule
import BytecodeOpt.Proofs.Program.Methods

/-!
# What a compilation commits

All that processing does to a session is to commit results, one method after the other.  The first
visit commits every method that has code to work on.
-/

namespace BytecodeOpt

open Fallible

/-! ## Attempts -/

section

variable {ε σ α β : Type} {a : ExceptT ε (StateM σ) α} {f : α → ExceptT ε (StateM σ) β}
  {s t : σ} {y : β}

theorem run_bind_of_ok {x : α} (h : (a.run s).1 = .ok x) :
    (a >>= f).run s = (f x).run (a.run s).2 :=
  congrArg (fun r => (ExceptT.bindCont f r).run (a.run s).2) h

theorem run_get_bind {f : σ → ExceptT ε (StateM σ) β} : (get >>= f).run s = (f s).run s := rfl

theorem of_run_pure {x : β} (h : (pure x : ExceptT ε (StateM σ) β).run s = (.ok y, t)) :
    x = y ∧ s = t := by
  cases h
  exact ⟨rfl, rfl⟩

theorem exists_of_run_bind (h : (a >>= f).run s = (.ok y, t)) :
    ∃ x u, a.run s = (.ok x, u) ∧ (f x).run u = (.ok y, t) := by
  cases ha : (a.run s).1 with
  | error e => cases (congrArg (fun r => (ExceptT.bindCont f r).run (a.run s).2) ha).symm.trans h
  | ok x =>
    rw [run_bind_of_ok ha] at h
    exact ⟨x, _, Prod.ext ha rfl, h⟩

theorem exists_of_run_ite_bind {p : Prop} [Decidable p] {a' : ExceptT ε (StateM σ) α}
    (h : (if p then a >>= f else a' >>= f).run s = (.ok y, t)) :
    ∃ x u, (if p then a else a').run s = (.ok x, u) ∧ (f x).run u = (.ok y, t) := by
  split at h
  · rename_i hp
    rw [if_pos hp]
    exact exists_of_run_bind h
  · rename_i hp
    rw [if_neg hp]
    exact exists_of_run_bind h

end

namespace Attempt

variable {α β : Type} {f : α → Attempt β} {a : Attempt α}

def Ensures (a : Attempt α) (P : α → Prop) :
    Prop := ∀ (j : Journal) (x : α), (a.run j).1 = .ok x → P x

theorem ensures_pure {P : α → Prop} {x : α} (h : P x) : Ensures (pure x) P := by
  intro j y hy
  cases hy
  exact h

theorem ensures_throw (P : α → Prop) (e : Error) : Ensures (throw e) P := by
  intro j y hy
  cases hy

theorem ensures_bind {P : β → Prop} (hf : ∀ x, (f x).Ensures P) : (a >>= f).Ensures P := by
  intro j y hy
  obtain ⟨x, u, -, hrest⟩ := exists_of_run_bind (Prod.ext hy rfl)
  exact hf x u y (congrArg Prod.fst hrest)

end Attempt

variable {c : Compiler} {stage : Stage} {id : MethodId}

open Attempt in
/-- What is known of a result is its name and what the passes found out. -/
theorem Compiler.ensures_process {p : Program} {P : Processed → Prop} (hkept : P { id })
    (hbody : ∀ (method : Method) (body : Ssa.Body) (r : Processed), r.id = id →
      r.summary = (Pass.runAll (c.contextOf p stage method) stage.passes { body }).1.summary →
        P r) :
    (c.process p stage id).Ensures P := by
  unfold process
  split
  · exact ensures_throw _ _
  · rename_i method hm
    split
    · exact ensures_pure hkept
    · refine ensures_bind fun lifted => ?_
      split
      · exact ensures_pure hkept
      · rename_i body
        exact ensures_bind fun _ => ensures_bind fun _ => ensures_bind fun _ =>
          ensures_bind fun _ =>
          ensures_bind fun _ => ensures_bind fun _ =>
            ensures_pure (hbody method body _ (Program.id_of_method? hm) rfl)

theorem Compiler.id_of_process {p : Program} {j : Journal} {r : Processed}
    (h : ((c.process p stage id).run j).1 = .ok r) : r.id = id :=
  ensures_process (P := fun r => r.id = id) rfl (fun _ _ _ hid _ => hid) j r h

namespace Session

variable {s t u : Session} {ids ids' : List MethodId} {x : Unit}

theorem id_updateMethod (r : Processed) (m : Method) : (updateMethod r m).id = m.id := rfl

structure SameWork (s t : Session) : Prop where
  program : s.program = t.program
  findings : s.findings = t.findings

theorem SameWork.refl (s : Session) : SameWork s s := ⟨rfl, rfl⟩

theorem SameWork.trans (h : SameWork s t) (h' : SameWork t u) : SameWork s u :=
  ⟨h.program.trans h'.program, h.findings.trans h'.findings⟩

theorem of_attempt {α : Type} {a : Attempt α} {r : α} (h : (attempt a).run s = (.ok r, t)) :
    (a.run s.journal).1 = .ok r ∧ SameWork s t := by
  have hraise : (attempt a).run s =
      (Error.raise (fun e => e) (a.run s.journal).1 : SessionM α).run
        { s with journal := (a.run s.journal).2 } := rfl
  rw [hraise] at h
  cases hresult : (a.run s.journal).1 with
  | error e =>
    rw [hresult] at h
    cases h
  | ok y =>
    rw [hresult] at h
    obtain ⟨hr, rfl⟩ := Prod.mk.inj h
    obtain rfl := Except.ok.inj hr
    exact ⟨rfl, rfl, rfl⟩

/-- The methods committed on the way from one session to the other, in order. -/
inductive Commits : Session → List MethodId → Session → Prop where
  | nil {s t : Session} (same : SameWork s t) : Commits s [] t
  | cons {s t u : Session} {r : Processed} {m : Method} {ids : List MethodId}
      (found : s.program.method? r.id = some m)
      (program : t.program = s.program.modifyMethod r.id (updateMethod r))
      (findings : t.findings = s.findings.add r (updateMethod r m).code)
      (rest : Commits t ids u) : Commits s (r.id :: ids) u

namespace Commits

theorem of_sameWork (h : Commits t ids u) (hsame : SameWork s t) : Commits s ids u := by
  cases h with
  | nil same => exact .nil (hsame.trans same)
  | cons found program findings rest =>
    exact .cons (hsame.program ▸ found) (hsame.program ▸ program) (hsame.findings ▸ findings) rest

theorem append (h : Commits s ids t) (h' : Commits t ids' u) : Commits s (ids ++ ids') u := by
  induction h with
  | nil same => exact h'.of_sameWork same
  | cons found program findings _ ih => exact .cons found program findings (ih h')

end Commits

/-- What holds of a session still does after the action, if it succeeds. -/
def Keeps {α : Type} (P : Session → Prop) (a : SessionM α) : Prop :=
  ∀ ⦃s : Session⦄ ⦃x : α⦄ ⦃t : Session⦄, P s → a.run s = (.ok x, t) → P t

namespace Keeps

variable {α β : Type} {P : Session → Prop} {a : SessionM α}

theorem pure (x : α) : Keeps P (pure x) := by
  intro s y t hs h
  obtain rfl := (Prod.mk.inj h).2
  exact hs

theorem bind {f : α → SessionM β} (ha : Keeps P a) (hf : ∀ x, Keeps P (f x)) :
    Keeps P (a >>= f) := by
  intro s y t hs h
  obtain ⟨x, u, hfirst, hrest⟩ := exists_of_run_bind h
  exact hf x (ha hs hfirst) hrest

theorem forM {f : α → SessionM Unit} (hf : ∀ x, Keeps P (f x)) (xs : List α) :
    Keeps P (xs.forM f) := by
  induction xs with
  | nil => exact pure ()
  | cons x xs ih => exact bind (hf x) fun _ => ih

end Keeps

/-! ## Processing -/

theorem exists_of_commit {r : Processed} (h : (commit r).run s = (.ok x, t)) :
    ∃ m, s.program.method? r.id = some m ∧ t.program = s.program.modifyMethod r.id
      (updateMethod r) ∧
      t.findings = s.findings.add r (updateMethod r m).code := by
  rw [commit, run_get_bind] at h
  cases hm : s.program.method? r.id with
  | none =>
    simp only [hm] at h
    cases h
  | some m =>
    simp only [hm] at h
    obtain rfl := (Prod.mk.inj h).2
    exact ⟨m, rfl, rfl, rfl⟩

theorem commits_commit {r : Processed} (h : (commit r).run s = (.ok x, t)) :
    Commits s [r.id] t := by
  obtain ⟨m, hm, hprogram, hfindings⟩ := exists_of_commit h
  exact .cons hm hprogram hfindings (.nil (.refl _))

theorem exists_of_processOne (h : (processOne c stage id).run s = (.ok x, t)) :
    ∃ (r : Processed) (u : Session), ((c.process s.program stage id).run s.journal).1 = .ok r ∧
      SameWork s u ∧
      (commit r).run u = (.ok x, t) := by
  rw [processOne, run_get_bind] at h
  obtain ⟨r, u, hattempt, hcommit⟩ := exists_of_run_bind h
  obtain ⟨hresult, hsame⟩ := of_attempt hattempt
  exact ⟨r, u, hresult, hsame, hcommit⟩

theorem commits_processOne (h : (processOne c stage id).run s = (.ok x, t)) : Commits s [id] t := by
  obtain ⟨r, u, hresult, hsame, hcommit⟩ := exists_of_processOne h
  obtain rfl := Compiler.id_of_process hresult
  exact (commits_commit hcommit).of_sameWork hsame

theorem commits_forM {α : Type} {f : α → SessionM Unit} (name : α → MethodId)
    (hf : ∀ {a s t x}, (f a).run s = (.ok x, t) → Commits s [name a] t) {as : List α}
    (h : (as.forM f).run s = (.ok x, t)) : Commits s (as.map name) t := by
  induction as generalizing s with
  | nil =>
    obtain rfl := (Prod.mk.inj h).2
    exact .nil (.refl s)
  | cons a as ih =>
    obtain ⟨_, u, hfirst, hrest⟩ := exists_of_run_bind (f := fun _ => as.forM f) h
    exact (hf hfirst).append (ih hrest)

theorem commits_processEach (h : (processEach c stage ids).run s = (.ok x, t)) :
    Commits s ids t := by
  have hids := commits_forM id commits_processOne h
  rwa [List.map_id] at hids

theorem of_mapM_process {p : Program} {results : List Processed}
    (h : (ids.mapM fun id => attempt (c.process p stage id)).run s = (.ok results, t)) :
    results.map Processed.id = ids ∧ SameWork s t := by
  induction ids generalizing s results with
  | nil =>
    obtain ⟨rfl, rfl⟩ := of_run_pure h
    exact ⟨rfl, .refl s⟩
  | cons id ids ih =>
    rw [List.mapM_cons] at h
    obtain ⟨r, u, hfirst, h⟩ := exists_of_run_bind h
    obtain ⟨rest, v, hrest, hpure⟩ := exists_of_run_bind h
    obtain ⟨rfl, rfl⟩ := of_run_pure hpure
    obtain ⟨hresult, hsame⟩ := of_attempt hfirst
    obtain ⟨hids, hbehind⟩ := ih hrest
    exact ⟨by rw [List.map_cons, Compiler.id_of_process hresult, hids], hsame.trans hbehind⟩

theorem commits_processTogether (h : (processTogether c stage ids).run s = (.ok x, t)) :
    Commits s ids t := by
  rw [processTogether, run_get_bind] at h
  obtain ⟨results, u, hresults, hcommit⟩ := exists_of_run_bind h
  obtain ⟨hids, hsame⟩ := of_mapM_process hresults
  exact (hids ▸ commits_forM Processed.id commits_commit hcommit).of_sameWork hsame

theorem commits_processBatch {batch : CallGraph.Batch}
    (h : (processBatch c stage batch).run s = (.ok x, t)) :
    Commits s batch.methods t := by
  rw [processBatch] at h
  split at h
  · exact commits_processTogether h
  · exact commits_processEach h

end Session

/-! ## The first visit -/

def Method.hasBody (m : Method) : Bool := m.code.isSome && !m.isAbstractOrNative

theorem Method.lift?_eq_none_iff {m : Method} : Ssa.lift? m = .ok none ↔ m.hasBody = false := by
  rw [Ssa.lift?, hasBody]
  cases m.isAbstractOrNative with
  | true => simp
  | false =>
    cases m.code with
    | none => simp
    | some code => simp [Fallible.map_eq_ok]

namespace Session

variable {c : Compiler} {s t : Session} {m : Method}

theorem id_markWithoutBody (m : Method) : (markWithoutBody m).id = m.id := by
  rw [markWithoutBody]
  split <;> rfl

theorem hasBody_markWithoutBody (m : Method) : (markWithoutBody m).hasBody = m.hasBody := by
  rw [markWithoutBody]
  split <;> rfl

theorem markWithoutBody_eq (m : Method) :
    markWithoutBody m = if m.hasBody then m else m.markProcessed .never := by
  have hbody : m.hasBody = !(m.code.isNone || m.isAbstractOrNative) := by
    rw [Method.hasBody, Bool.not_or, Option.not_isNone]
  rw [markWithoutBody, hbody]
  cases m.code.isNone || m.isAbstractOrNative <;> rfl

theorem processCount_markWithoutBody (m : Method) :
    (markWithoutBody m).processCount = m.processCount + if m.hasBody then 0 else 1 := by
  rw [markWithoutBody_eq]
  split <;> rfl

def prepared (c : Compiler) (cls : Class) : Class :=
  let marked := cls.mapMethods markWithoutBody
  if c.options.desugarsLambdas then dropDeserializeHooks marked else marked

theorem type_prepared (c : Compiler) (cls : Class) : (prepared c cls).type = cls.type := by
  rw [prepared]
  split <;> rfl

theorem methods_prepared (c : Compiler) (cls : Class) :
    (prepared c cls).methods.Sublist (cls.methods.map markWithoutBody) := by
  rw [← Class.methods_mapMethods, prepared]
  split
  · exact List.filter_sublist.append (.refl _)
  · exact .refl _

theorem ids_prepared (c : Compiler) (cls : Class) :
    ((prepared c cls).methods.map Method.id).Sublist (cls.methods.map Method.id) := by
  have hids := (methods_prepared c cls).map Method.id
  rwa [List.map_map, show Method.id ∘ markWithoutBody = Method.id from funext
    id_markWithoutBody] at hids

theorem of_prepare {names : Option LambdaNames} (h : (prepare c).run s = (.ok names, t)) :
    t.program = s.program.mapClasses (prepared c) ∧ t.findings = s.findings := by
  have hclasses (f : Class → Class)
      (hf : prepared c = fun cls => f (cls.mapMethods markWithoutBody)) :
      (s.program.mapMethods markWithoutBody).mapClasses f = s.program.mapClasses (prepared c) := by
    simp only [Program.mapMethods, Program.mapClasses, List.map_map, hf]
    rfl
  rw [prepare, run_get_bind] at h
  simp only at h
  split at h <;> rename_i hlambdas
  all_goals
    obtain ⟨_, u, hset, hpure⟩ := exists_of_run_bind h
    obtain rfl := (Prod.mk.inj hset).2
    obtain rfl := (Prod.mk.inj hpure).2
    refine ⟨?_, rfl⟩
  · exact hclasses dropDeserializeHooks (funext fun cls => if_pos hlambdas)
  · rw [← hclasses id (funext fun cls => if_neg hlambdas)]
    simp only [Program.mapClasses, List.map_id]

theorem exists_of_prepare {names : Option LambdaNames} (h : (prepare c).run s = (.ok names, t))
    (hm : m ∈ t.program.methods) : ∃ m₀ ∈ s.program.methods, markWithoutBody m₀ = m := by
  rw [(of_prepare h).1, Program.mem_methods] at hm
  obtain ⟨_, hcls, hm⟩ := hm
  obtain ⟨cls, hold, rfl⟩ := List.mem_map.1 hcls
  obtain ⟨m₀, hm₀, rfl⟩ := List.mem_map.1 ((methods_prepared c cls).subset hm)
  exact ⟨m₀, Program.mem_methods.2 ⟨cls, hold, hm₀⟩, rfl⟩

end Session

namespace CallGraph

def waiting (g : CallGraph) : List MethodId :=
  g.methodsAt ((List.range g.nodes.size).filter fun i => !g.isRemoved i)

variable {g g' : CallGraph}

theorem HandsOut.perm_waiting {batch : Batch} {indices : List Nat}
    (h : HandsOut g batch g' indices) :
    g.waiting.Perm (batch.methods ++ g'.waiting) := by
  have hleft : ((List.range g.nodes.size).filter fun i => !g.isRemoved i).Perm
      (indices ++ (List.range g.nodes.size).filter fun i => !g'.isRemoved i) := by
    have hnodup : (indices ++ (List.range g.nodes.size).filter fun i => !g'.isRemoved i).Nodup := by
      refine h.nodup.append (List.nodup_range.filter _) fun i hi hbehind => ?_
      have hkept := (List.mem_filter.1 hbehind).2
      rw [(h.removed i).2 (.inl hi)] at hkept
      cases hkept
    refine (List.perm_ext_iff_of_nodup (List.nodup_range.filter _) hnodup).2 fun i => ?_
    simp only [List.mem_append, List.mem_filter, List.mem_range, Bool.not_eq_true',
      ← Bool.not_eq_true, h.removed]
    constructor
    · grind
    · rintro (hmem | ⟨hlt, hi⟩)
      · have hkept := h.left i hmem
        exact ⟨lt_size_of_not_isRemoved hkept, Bool.eq_false_iff.1 hkept⟩
      · exact ⟨hlt, fun hremoved => hi (.inr hremoved)⟩
  have hmethods := hleft.filterMap fun i => g.nodes[i]?.map Node.method
  rw [List.filterMap_append] at hmethods
  rw [h.methods, waiting, waiting, h.same.size_eq, h.same.methodsAt]
  exact hmethods

theorem Consistent.waiting_eq_nil (h : g.Consistent) (hempty : g.isEmpty = true) :
    g.waiting = [] := by
  have hnone : ((List.range g.nodes.size).filter fun i => !g.isRemoved i) = [] :=
    List.filter_eq_nil_iff.2 fun i _ => by simp [h.isEmpty_iff.1 hempty i]
  rw [waiting, hnone]
  rfl

theorem waiting_ofProgram (p : Program) (lens : Lens) :
    (ofProgram p lens fun _ => true).waiting = (p.methods.filter Method.hasBody).map Method.id := by
  have hall : ((List.range (ofProgram p lens fun _ => true).nodes.size).filter
      fun i => !(ofProgram p lens fun _ => true).isRemoved i) =
        List.range (ofProgram p lens fun _ => true).nodes.size :=
    List.filter_eq_self.2 fun i hi => by rw [isRemoved_ofProgram (List.mem_range.1 hi)]; rfl
  have hrange (nodes : List Node) : (List.range nodes.length).filterMap
      (fun i => nodes[i]?.map Node.method) =
      nodes.map Node.method := by
    induction nodes with
    | nil => rfl
    | cons n nodes ih =>
      rw [List.length_cons, List.range_succ_eq_map, List.filterMap_cons, List.filterMap_map,
        List.map_cons, ← ih]
      rfl
  have hnode (m : Method) : (nodeOf? p lens (fun _ => true) m).map Node.method =
      if m.hasBody then some m.id else none := by
    cases hcode : m.code with
    | none => simp [nodeOf?, Method.hasBody, hcode]
    | some code => cases hbody :
        m.isAbstractOrNative <;> simp [nodeOf?, Method.hasBody, hcode, hbody]
  rw [waiting, hall, methodsAt]
  simp only [ofProgram, Array.getElem?_mapIdx, Array.size_mapIdx, List.getElem?_toArray,
    List.size_toArray, Option.map_map,
    Function.comp_def, hrange]
  rw [List.map_map]
  have hmethod : (Node.method ∘ fun n : Node =>
      n.withEdges
        (edgesOf (indexIn? (p.methods.filterMap (nodeOf? p lens fun _ => true))) n.sites)) =
        Node.method := rfl
  rw [hmethod, List.map_filterMap, List.filterMap_congr fun m _ => hnode m,
    ← List.filterMap_eq_filter,
    List.map_filterMap]
  refine List.filterMap_congr fun m _ => ?_
  rw [Option.guard]
  cases m.hasBody <;> rfl

end CallGraph

namespace Session

variable {c : Compiler} {stage : Stage} {s t : Session} {x : Unit} {types : List TypeName}
  {cls cls' : Class}

/-- Enough batches commit each method of a graph once: the induction is on the batches that are
left. -/
theorem commits_processGraph {batches number : Nat} {graph : CallGraph} (hgraph : graph.Consistent)
    (hcount : graph.left.card ≤ batches)
    (h : (processGraph c stage batches number graph).run s = (.ok x, t)) :
    ∃ ids, Commits s ids t ∧ ids.Perm graph.waiting := by
  have hdone (hempty : graph.isEmpty = true) : ∃ ids, Commits s ids s ∧ ids.Perm graph.waiting :=
    ⟨[], .nil (.refl s), by rw [hgraph.waiting_eq_nil hempty]⟩
  induction batches generalizing number graph s with
  | zero =>
    obtain rfl := (Prod.mk.inj h).2
    refine hdone ?_
    rw [CallGraph.isEmpty, decide_eq_true_eq, hgraph.remaining]
    exact Nat.le_zero.1 hcount
  | succ batches ih =>
    rw [processGraph] at h
    split at h
    · rename_i hempty
      obtain rfl := (Prod.mk.inj h).2
      exact hdone hempty
    · rename_i hempty
      obtain ⟨batch, next, indices, hnext, hhands, hconsistent⟩ := hgraph.exists_next
      simp only [hnext, Error.raise, pure_bind] at h
      obtain ⟨_, s', hrecord, hrun⟩ := exists_of_run_bind h
      obtain rfl := (Prod.mk.inj hrecord).2
      obtain ⟨_, s'', hbatch, hrest⟩ := exists_of_run_bind hrun
      have hlt := hhands.card_left_lt (Bool.eq_false_iff.2 hempty)
      obtain ⟨ids, hids, hperm⟩ := ih hconsistent (by omega) hrest fun hempty =>
        ⟨[], .nil (.refl s''), by rw [hconsistent.waiting_eq_nil hempty]⟩
      exact ⟨batch.methods ++ ids,
        ((commits_processBatch hbatch).append hids).of_sameWork ⟨rfl, rfl⟩,
        (hperm.append_left _).trans hhands.perm_waiting.symm⟩

/-- The first visit commits each method that has code to work on once. -/
theorem commits_discover {names : Option LambdaNames} (h : (discover c names).run s = (.ok x, t)) :
    ∃ ids, Commits s ids t ∧
      ids.Perm ((s.program.methods.filter Method.hasBody).map Method.id) := by
  rw [discover, run_get_bind] at h
  have hgraph := CallGraph.consistent_ofProgram s.program c.lens fun _ => true
  obtain ⟨ids, hids, hperm⟩ := commits_processGraph hgraph hgraph.remaining.ge h
  exact ⟨ids, hids, CallGraph.waiting_ofProgram s.program c.lens ▸ hperm⟩

/-! ## Visits again and new classes -/

theorem exists_of_revisit (h : (revisit c stage id).run s = (.ok x, t)) :
    ∃ u, u.program = s.program.modifyMethod id Method.markWaiting ∧ u.findings = s.findings ∧
      (processOne c stage id).run u = (.ok x, t) := by
  rw [revisit, run_get_bind] at h
  split at h
  · cases h
  · obtain ⟨_, u, hset, hone⟩ := exists_of_run_bind h
    obtain rfl := (Prod.mk.inj hset).2
    exact ⟨{ s with program := s.program.modifyMethod id Method.markWaiting }, rfl, rfl, hone⟩

theorem of_addClass {cls : Class} (h : (addClass cls).run s = (.ok x, t)) :
    s.program.isProgramType cls.type = false ∧
      t.program = { s.program with classes := s.program.classes ++ [cls] } := by
  rw [addClass, run_get_bind, Program.addClass] at h
  split at h
  · cases h
  · rename_i hnew
    obtain rfl := (Prod.mk.inj h).2
    exact ⟨Bool.eq_false_iff.2 hnew, rfl⟩

theorem classes_of_forM_addClass {classes : List Class}
    (h : (classes.forM addClass).run s = (.ok x, t)) :
    t.program.classes = s.program.classes ++ classes := by
  induction classes generalizing s with
  | nil =>
    obtain rfl := (Prod.mk.inj h).2
    exact (List.append_nil _).symm
  | cons cls classes ih =>
    obtain ⟨_, u, hfirst, hrest⟩ := exists_of_run_bind (f := fun _ => classes.forM addClass) h
    rw [ih hrest, (of_addClass hfirst).2, List.append_assoc, List.singleton_append]

theorem exists_of_compileClass {cls : Class} (h : (compileClass c stage cls).run s = (.ok x, t)) :
    ∃ u, s.program.isProgramType cls.type = false ∧
      u.program = { s.program with classes := s.program.classes ++ [cls] } ∧
        Commits u (cls.methods.map Method.id) t := by
  obtain ⟨_, s', hrecord, hrun⟩ := exists_of_run_bind h
  obtain rfl := (Prod.mk.inj hrecord).2
  obtain ⟨_, u, hadd, heach⟩ := exists_of_run_bind hrun
  obtain ⟨hnew, hprogram⟩ := of_addClass hadd
  exact ⟨u, hnew, hprogram, commits_processEach heach⟩

theorem exists_of_addLambdas (h : (addLambdas c stage).run s = (.ok types, t)) :
    ∃ u : Session, u.program = ((usedLambdas s.findings).map Prod.snd).foldl
      openImplementation s.program ∧
      ((usedLambdas s.findings).forM fun e => compileClass c stage (Lambda.classFor e.1 e.2)).run
        u = (.ok (), t) ∧
      types = (usedLambdas s.findings).map Prod.fst := by
  rw [addLambdas, run_get_bind] at h
  obtain ⟨_, u, hset, hrest⟩ := exists_of_run_bind h
  obtain rfl := (Prod.mk.inj hset).2
  obtain ⟨_, v, hclasses, hpure⟩ := exists_of_run_bind hrest
  obtain ⟨rfl, rfl⟩ := of_run_pure hpure
  exact ⟨{ s with program :=
    ((usedLambdas s.findings).map Prod.snd).foldl openImplementation s.program }, rfl,
    hclasses, rfl⟩

open Pass.SuppressedExceptions in
theorem of_addSuppressionSupport (h : (addSuppressionSupport c stage).run s = (.ok types, t)) :
    types = [] ∧ t = s ∨ types = [supportClass.type] ∧ (compileClass c stage supportClass).run s =
      (.ok (), t) := by
  rw [addSuppressionSupport, run_get_bind] at h
  simp only at h
  split at h
  · obtain ⟨_, u, hclass, hpure⟩ := exists_of_run_bind h
    obtain ⟨rfl, rfl⟩ := of_run_pure hpure
    exact .inr ⟨rfl, hclass⟩
  · obtain ⟨rfl, rfl⟩ := of_run_pure h
    exact .inl ⟨rfl, rfl⟩

section

open Pass.InterfaceMethods

theorem type_dropMoved (cls : Class) : (dropMoved cls).type = cls.type := by
  rw [dropMoved]
  split <;> rfl

theorem methods_dropMoved_sublist (cls : Class) : (dropMoved cls).methods.Sublist cls.methods := by
  rw [dropMoved]
  split
  · exact List.filter_sublist.append (.refl _)
  · exact .refl _

section

variable (h : companionClass? cls = some cls')
include h

theorem eq_of_companionClass? :
    cls' = ((cls.direct.filter isMoved).map (moveMethod (companion cls.type))).foldl Class.addMethod
      { type := companion cls.type,
        flags := { isPublic := true, isFinal := true, isSynthetic := true } } := by
  rw [companionClass?] at h
  split at h
  · grind
  · cases h

theorem type_of_companionClass? : cls'.type = companion cls.type := by
  obtain rfl := eq_of_companionClass? h
  exact Class.type_foldl_addMethod _ _

theorem mem_methods_of_companionClass? {m' : Method} :
    m' ∈ cls'.methods ↔ ∃ m ∈ cls.direct, isMoved m = true ∧
      moveMethod (companion cls.type) m = m' := by
  obtain rfl := eq_of_companionClass? h
  rw [(Class.methods_foldl_addMethod _ _).mem_iff]
  simp only [Class.methods, List.nil_append, List.mem_map, List.mem_filter, and_assoc]

end

theorem of_addCompanions {added : List TypeName} (h : addCompanions.run s = (.ok added, t)) :
    t.program.classes =
        s.program.classes.map dropMoved ++ s.program.classes.filterMap companionClass? ∧
      added = (s.program.classes.filterMap companionClass?).map Class.type := by
  rw [addCompanions, run_get_bind] at h
  obtain ⟨_, u, hset, hrest⟩ := exists_of_run_bind h
  obtain ⟨_, v, hadd, hrest⟩ := exists_of_run_bind hrest
  obtain ⟨hadded, rfl⟩ := Prod.mk.inj hrest
  obtain rfl := (Prod.mk.inj hset).2
  exact ⟨classes_of_forM_addClass hadd, (Except.ok.inj hadded).symm⟩

end

/-! ## A whole compilation -/

theorem exists_of_finishDesugaring {passes : List Pass} {replaces : Bool}
    (h : (finishDesugaring c passes replaces).run s = (.ok types, t)) :
    ∃ (lambdas support companions : List TypeName) (u v : Session),
      (if replaces then addLambdas c { passes } else pure []).run s = (.ok lambdas, u) ∧
      (addSuppressionSupport c { passes }).run u = (.ok support, v) ∧
      (if c.options.movesInterfaceMethods then addCompanions else pure []).run v =
        (.ok companions, t) ∧
      types = lambdas ++ support ++ companions := by
  obtain ⟨lambdas, u, hlambdas, hrun⟩ := exists_of_run_ite_bind h
  obtain ⟨support, v, hsupport, hrun⟩ := exists_of_run_bind hrun
  obtain ⟨companions, w, hcompanions, hpure⟩ := exists_of_run_ite_bind hrun
  obtain ⟨rfl, rfl⟩ := of_run_pure hpure
  exact ⟨lambdas, support, companions, u, v, hlambdas, hsupport, hcompanions, rfl⟩

theorem exists_of_optimize {out : Compiler.Output} (h : (optimize c).run s = (.ok out, t)) :
    ∃ (names : Option LambdaNames) (s₁ s₂ s₃ : Session) (outlined : List TypeName) (s₄ : Session)
      (desugared : List TypeName) (s₅ : Session),
      (prepare c).run s = (.ok names, s₁) ∧ (discover c names).run s₁ = (.ok (), s₂) ∧
      (inlineAgain c names).run s₂ = (.ok (), s₃) ∧ (outline c names).run s₃ = (.ok outlined, s₄) ∧
      (finishDesugaring c Pass.standard names.isSome).run s₄ = (.ok desugared, s₅) ∧
      t.program = s₅.program.mapMethods Method.markWaiting ∧ out.newClasses = outlined ++
        desugared := by
  rw [optimize] at h
  obtain ⟨names, s₁, hprepare, h⟩ := exists_of_run_bind h
  obtain ⟨_, s₂, hdiscover, h⟩ := exists_of_run_bind h
  obtain ⟨_, s₃, hagain, h⟩ := exists_of_run_bind h
  obtain ⟨outlined, s₄, houtline, h⟩ := exists_of_run_bind h
  obtain ⟨desugared, s₅, hdesugar, h⟩ := exists_of_run_bind h
  obtain ⟨_, s₆, hclear, h⟩ := exists_of_run_bind h
  rw [run_get_bind] at h
  obtain ⟨hout, rfl⟩ := Prod.mk.inj h
  obtain rfl := (Prod.mk.inj hclear).2
  obtain rfl := Except.ok.inj hout
  exact ⟨names, s₁, s₂, s₃, outlined, s₄, desugared, s₅, hprepare, hdiscover, hagain, houtline,
    hdesugar, rfl, rfl⟩

end Session

end BytecodeOpt
