import BytecodeOpt.Proofs.Allocation.Intervals
import BytecodeOpt.Proofs.Allocation.Numbering

/-!
# What an interval covers

In each block a value has its register from where it is defined, or from the start of the block, up
to its last read there, or to the end of the block if it is live behind it.
-/

namespace BytecodeOpt.Allocation

open Ssa Interval

section

variable (body : Body) (n : Numbering) (l : Liveness) (b : BlockId) (v : Operand)

inductive DefinedAt : Nat → Prop where
  | phi : v ∈ (body.block b).phiDests → DefinedAt (n.blockStart b)
  | op {i : Nat} {op : Op} : (body.block b).ops[i]? = some op → op.dest? = some v →
      DefinedAt (n.position b i + 1)

inductive ReadAt : Nat → Prop where
  | op {i : Nat} {op : Op} : (body.block b).ops[i]? = some op → v ∈ op.uses →
      ReadAt (n.position b i)

def Occupies (p : Nat) : Prop :=
  DefinedAt body n b v p ∨
    (n.blockStart b ≤ p ∧ p < n.blockStop b ∧ (∀ d, DefinedAt body n b v d → d ≤ p) ∧
      (v ∈ l.liveOutOf b ∨ ∃ q, ReadAt body n b v q ∧ p ≤ q))

end

/-! ## Changes of one interval -/

section Folds

variable {count : Nat} {intervals : Intervals} {v : Operand} {q : Nat}

theorem covered_foldl_addRange (h : Unbound count intervals) (hv : v < count) (start stop : Nat)
    (vs : List Operand) :
    Covered (Intervals.of (vs.foldl (fun intervals w =>
        intervals.modify w (·.addRange start stop)) intervals) v).ranges q ↔
      Covered (intervals.of v).ranges q ∨ (v ∈ vs ∧ start ≤ q ∧ q < stop) := by
  induction vs generalizing intervals with
  | nil => simp
  | cons w vs ih =>
    rw [List.foldl_cons, ih (h.modify (keepsValue_addRange start stop) w), of_modify, List.mem_cons]
    by_cases hw : w = v
    · rw [if_pos ⟨hw, h.size ▸ hv⟩, covered_addRange (h.separated v)]
      have : v = w := hw.symm
      tauto
    · grind

theorem covered_foldl_defineAt (h : Unbound count intervals) (hv : v < count) {start : Nat}
    (hleast : ∀ q, Covered (intervals.of v).ranges q → start ≤ q) (phis : List Phi) :
    Covered (Intervals.of (phis.foldl (fun intervals phi =>
        intervals.modify phi.dest (·.defineAt start)) intervals) v).ranges q ↔
      Covered (intervals.of v).ranges q ∨ (v ∈ phis.map Phi.dest ∧ q = start) := by
  induction phis generalizing intervals with
  | nil => simp
  | cons phi phis ih =>
    have hone :
        ∀ r, Covered (Intervals.of (intervals.modify phi.dest (·.defineAt start)) v).ranges r ↔
        Covered (intervals.of v).ranges r ∨ (phi.dest = v ∧ r = start) := by
      intro r
      rw [of_modify]
      by_cases hw : phi.dest = v
      · rw [if_pos ⟨hw, h.size ▸ hv⟩, covered_defineAt (h.separated v) (Nat.le_refl start) hleast]
        · grind
        · grind
      · grind
    rw [List.foldl_cons, ih (h.modify (keepsValue_defineAt start) phi.dest), hone, List.map_cons,
      List.mem_cons]
    · grind
    · grind

theorem covered_addOp (h : Unbound count intervals) (hv : v < count) (n : Numbering) (b : BlockId)
    (op : Op) (index : Nat) :
    Covered (Intervals.of (addOp n b intervals op index) v).ranges q ↔
      Covered (if op.dest? = some v then (intervals.of v).defineAt (n.position b index + 1)
        else intervals.of v).ranges q ∨
        (v ∈ op.uses ∧ n.blockStart b ≤ q ∧ q ≤ n.position b index) := by
  unfold addOp
  cases hdest : op.dest? with
  | none =>
    rw [covered_foldl_addRange h hv]
    simp [Nat.lt_succ_iff]
  | some w =>
    rw [covered_foldl_addRange (h.modify (keepsValue_defineAt _) w) hv, of_modify]
    by_cases hw : w = v
    · rw [if_pos ⟨hw, h.size ▸ hv⟩]
      simp [hw, Nat.lt_succ_iff]
    · grind

end Folds

/-! ## One block -/

section Ops

variable {count : Nat} {intervals : Intervals} {v : Operand} {n : Numbering} {ops : List Op}
  {b : BlockId} {op : Op} {k p : Nat}

def DefinesAt (n : Numbering) (b : BlockId) (v : Operand) (k : Nat) (ops : List Op) (p : Nat) :
    Prop :=
  ∃ i op, ops[i]? = some op ∧ op.dest? = some v ∧ p = n.position b (k + i) + 1

def ReadsAt (n : Numbering) (b : BlockId) (v : Operand) (k : Nat) (ops : List Op) (p : Nat) :
    Prop :=
  ∃ i op, ops[i]? = some op ∧ v ∈ op.uses ∧ p = n.position b (k + i)

theorem exists_at_cons {P : Op → Prop} {f : Nat → Nat} :
    (∃ i o, (op :: ops)[i]? = some o ∧ P o ∧ p = f (k + i)) ↔
      (P op ∧ p = f k) ∨ ∃ i o, ops[i]? = some o ∧ P o ∧ p = f (k + 1 + i) := by
  constructor
  · rintro ⟨_ | i, o, ho, hop, rfl⟩
    · grind
    · exact .inr ⟨i, o, ho, hop, by rw [Nat.add_right_comm, Nat.add_assoc]⟩
  · rintro (⟨hop, rfl⟩ | ⟨i, o, ho, hop, rfl⟩)
    · exact ⟨0, op, rfl, hop, rfl⟩
    · exact ⟨i + 1, o, ho, hop, by rw [Nat.add_right_comm, Nat.add_assoc]⟩

theorem definesAt_cons :
    DefinesAt n b v k (op :: ops) p ↔ (op.dest? = some v ∧ p = n.position b k + 1) ∨
      DefinesAt n b v (k + 1) ops p :=
  exists_at_cons (f := fun k => n.position b k + 1)

theorem readsAt_cons :
    ReadsAt n b v k (op :: ops) p ↔ (v ∈ op.uses ∧ p = n.position b k) ∨
      ReadsAt n b v (k + 1) ops p :=
  exists_at_cons

/-- The value is defined at most once, and read only behind that. -/
structure ReadsBehind (v : Operand) (ops : List Op) : Prop where
  once : (ops.filterMap Op.dest?).Nodup
  behind : ∀ (i j : Nat) (op op' : Op), ops[i]? = some op → v ∈ op.uses → ops[j]? = some op' →
    op'.dest? = some v → j < i

theorem ReadsBehind.tail (h : ReadsBehind v (op :: ops)) : ReadsBehind v ops where
  once := h.once.sublist ((List.sublist_cons_self op ops).filterMap _)
  behind := fun i j o o' ho hv ho' hdest =>
    Nat.lt_of_succ_lt_succ (h.behind (i + 1) (j + 1) o o' ho hv ho' hdest)

theorem ReadsBehind.not_definesAt (h : ReadsBehind v (op :: ops))
    (hop : op.dest? = some v ∨ v ∈ op.uses) :
    ¬ DefinesAt n b v k ops p := by
  rintro ⟨i, o, ho, hdest, -⟩
  rcases hop with hop | hop
  · have honce := h.once
    rw [List.filterMap_cons, hop] at honce
    exact (List.nodup_cons.1 honce).1 (List.mem_filterMap.2 ⟨o, List.mem_of_getElem? ho, hdest⟩)
  · exact Nat.not_lt_zero _ (h.behind 0 (i + 1) op o rfl hop ho hdest)

def Asks (n : Numbering) (b : BlockId) (v : Operand) (live : Prop) (stop k : Nat) (ops : List Op)
    (q : Nat) : Prop :=
  DefinesAt n b v k ops q ∨
    (n.blockStart b ≤ q ∧ q < stop ∧ (∀ d, DefinesAt n b v k ops d → d ≤ q) ∧
    (live ∨ ∃ r, ReadsAt n b v k ops r ∧ q ≤ r))

section

variable {n : Numbering} {b : BlockId} {live : Prop} {stop k q : Nat} {op : Op} {ops : List Op}

theorem ReadsAt.position_le (h : ReadsAt n b v k ops q) : n.position b k ≤ q := by
  obtain ⟨i, o, -, -, rfl⟩ := h
  simp only [Numbering.position]
  omega

theorem asks_cons_of_dest (hreads : ReadsBehind v (op :: ops)) (hdest : op.dest? = some v) :
    Asks n b v live stop k (op :: ops) q ↔
      q = n.position b k + 1 ∨ (Asks n b v live stop (k + 1) ops q ∧ n.position b k + 1 ≤ q) := by
  have hnone : ∀ {d}, ¬ DefinesAt n b v (k + 1) ops d := hreads.not_definesAt (.inl hdest)
  have huse : v ∉ op.uses := fun hu =>
    Nat.lt_irrefl _ (hreads.behind 0 0 op op rfl hu rfl hdest)
  simp only [Asks, definesAt_cons, readsAt_cons, hdest, hnone, huse, true_and, or_false, false_and,
    false_or, forall_eq, IsEmpty.forall_iff, implies_true]
  tauto

theorem asks_cons_of_ne (hreads : ReadsBehind v (op :: ops)) (hdest : op.dest? ≠ some v)
    (hroom : n.position b k < stop) :
    Asks n b v live stop k (op :: ops) q ↔ Asks n b v live stop (k + 1) ops q ∨
      (v ∈ op.uses ∧ n.blockStart b ≤ q ∧ q ≤ n.position b k) := by
  simp only [Asks, definesAt_cons, readsAt_cons, hdest, false_and, false_or]
  by_cases huse : v ∈ op.uses
  · have hnone : ∀ {d}, ¬ DefinesAt n b v (k + 1) ops d := hreads.not_definesAt (.inr huse)
    simp only [hnone, huse, true_and, false_or, IsEmpty.forall_iff, implies_true]
    constructor
    · grind
    · rintro (⟨hstart, hstop, hlive | ⟨r, hr, hle⟩⟩ | ⟨hstart, hle⟩)
      · exact ⟨hstart, hstop, .inl hlive⟩
      · exact ⟨hstart, hstop, .inr ⟨r, .inr hr, hle⟩⟩
      · exact ⟨hstart, by omega, .inr ⟨_, .inl rfl, hle⟩⟩
  · simp only [huse, false_and, false_or, or_false]

theorem Asks.bounds (h : Asks n b v live stop k ops q)
    (hroom : n.position b (k + ops.length) ≤ stop) :
    n.blockStart b ≤ q ∧ q < stop := by
  rcases h with ⟨i, o, ho, -, rfl⟩ | ⟨hstart, hstop, -⟩
  · have hi := (List.getElem?_eq_some_iff.1 ho).1
    simp only [Numbering.position] at hroom ⊢
    omega
  · exact ⟨hstart, hstop⟩

end

theorem covered_foldr_addOp {stop : Nat} {old : Nat → Prop} {live : Prop}
    (h : Unbound count intervals) (hv : v < count) (hold : ∀ q, old q → stop ≤ q)
    (hinit : ∀ q, Covered (intervals.of v).ranges q ↔ old q ∨
      (live ∧ n.blockStart b ≤ q ∧ q < stop)) (ops : List Op)
    (k : Nat) (hroom : n.position b (k + ops.length) ≤ stop) (hreads : ReadsBehind v ops) :
    Unbound count ((ops.zipIdx k).foldr (fun e is => addOp n b is e.1 e.2) intervals) ∧
      ∀ q, Covered (Intervals.of ((ops.zipIdx k).foldr (fun e is => addOp n b is e.1 e.2) intervals)
        v).ranges q ↔ old q ∨ Asks n b v live stop k ops q := by
  induction ops generalizing k with
  | nil =>
    refine ⟨h, fun q => (hinit q).trans ?_⟩
    simp [Asks, DefinesAt, ReadsAt, and_comm, and_assoc]
  | cons op ops ih =>
    have hroom' : n.position b (k + 1 + ops.length) ≤ stop := by grind
    have hpos : n.blockStart b ≤ n.position b k + 1 ∧ n.position b k + 1 < n.position b (k + 1) ∧
        n.position b (k + 1) ≤ stop := by
      simp only [Numbering.position] at hroom' ⊢
      omega
    obtain ⟨hunbound, hiff⟩ := ih (k + 1) hroom' hreads.tail
    rw [List.zipIdx_cons, List.foldr_cons]
    refine ⟨hunbound.addOp n b op k, fun q => ?_⟩
    rw [covered_addOp hunbound hv]
    by_cases hdest : op.dest? = some v
    · have hnone : ∀ {d}, ¬ DefinesAt n b v (k + 1) ops d := hreads.not_definesAt (.inl hdest)
      have huse : v ∉ op.uses := fun hu =>
        Nat.lt_irrefl _ (hreads.behind 0 0 op op rfl hu rfl hdest)
      rw [if_pos hdest, covered_defineAt (hunbound.separated v) hpos.1, hiff q,
        asks_cons_of_dest hreads hdest]
      · grind
      · intro r hr
        rcases (hiff r).1 hr with hr | hr
        · grind
        · exact (hr.bounds hroom').1
      · by_cases hlive : live ∨ ∃ r, ReadsAt n b v (k + 1) ops r
        · refine .inl fun r hr hr' => (hiff r).2 (.inr (.inr ⟨hr, by omega, ?_, ?_⟩))
          · exact fun d hd => absurd hd hnone
          · refine hlive.imp_right fun ⟨s, hs⟩ => ⟨s, hs, ?_⟩
            have := hs.position_le
            omega
        · refine .inr fun r hr hr' hc => ?_
          rcases (hiff r).1 hc with hc | hc | ⟨-, -, -, hc⟩
          · grind
          · exact hnone hc
          · exact hlive (hc.imp_right fun ⟨s, hs, _⟩ => ⟨s, hs⟩)
    · rw [if_neg hdest, hiff q, asks_cons_of_ne hreads hdest (by omega), or_assoc]

end Ops

section Block

variable {body : Body} {n : Numbering} {l : Liveness} {b : BlockId} {v : Operand} {q : Nat}

theorem definedAt_iff : DefinedAt body n b v q ↔
    (v ∈ (body.block b).phiDests ∧ q = n.blockStart b) ∨
      DefinesAt n b v 0 (body.block b).ops q := by
  constructor
  · rintro (hphi | ⟨hop, hdest⟩)
    · exact .inl ⟨hphi, rfl⟩
    · exact .inr ⟨_, _, hop, hdest, by rw [Nat.zero_add]⟩
  · rintro (⟨hphi, rfl⟩ | ⟨i, op, hop, hdest, rfl⟩)
    · exact .phi hphi
    · rw [Nat.zero_add]
      exact .op hop hdest

theorem readAt_iff : ReadAt body n b v q ↔ ReadsAt n b v 0 (body.block b).ops q := by
  constructor
  · rintro ⟨hop, huse⟩
    exact ⟨_, _, hop, huse, by rw [Nat.zero_add]⟩
  · rintro ⟨i, op, hop, huse, rfl⟩
    rw [Nat.zero_add]
    exact .op hop huse

theorem occupies_iff : Occupies body n l b v q ↔
    (v ∈ (body.block b).phiDests ∧ q = n.blockStart b) ∨
      Asks n b v (v ∈ l.liveOutOf b) (n.blockStop b) 0 (body.block b).ops q := by
  have hphi : n.blockStart b ≤ q → ((∀ d, DefinedAt body n b v d → d ≤ q) ↔
      ∀ d, DefinesAt n b v 0 (body.block b).ops d → d ≤ q) := by
    intro hstart
    simp only [definedAt_iff]
    refine ⟨fun h d hd => h d (.inr hd), fun h d hd => ?_⟩
    rcases hd with ⟨-, rfl⟩ | hd
    · exact hstart
    · exact h d hd
  rw [Occupies, Asks, definedAt_iff, or_assoc]
  simp only [readAt_iff]
  refine or_congr_right (or_congr_right (and_congr_right fun hstart => ?_))
  rw [hphi hstart]

def HasRoom (body : Body) (n : Numbering) (b : BlockId) : Prop :=
  n.blockStop b = n.blockStart b + extent body b

theorem HasRoom.room (h : HasRoom body n b) :
    n.position b (0 + (body.block b).ops.length) ≤ n.blockStop b := by
  rw [h, extent, Numbering.position, Nat.zero_add]

theorem Occupies.bounds (h : Occupies body n l b v q) (hroom : HasRoom body n b) :
    n.blockStart b ≤ q ∧ q < n.blockStop b := by
  rcases occupies_iff.1 h with ⟨-, rfl⟩ | h
  · rw [hroom, extent]
    omega
  · exact h.bounds hroom.room

theorem addBlock_eq (body : Body) (n : Numbering) (l : Liveness) (intervals : Intervals)
    (b : BlockId) :
    addBlock body n l intervals b =
      (body.block b).phis.foldl
        (fun intervals phi => intervals.modify phi.dest (·.defineAt (n.blockStart b)))
        ((body.block b).ops.zipIdx.foldr (fun e is => addOp n b is e.1 e.2)
          ((l.liveOutOf b).foldl (fun intervals v =>
            intervals.modify v (·.addRange (n.blockStart b) (n.blockStop b))) intervals)) := by
  rw [← List.foldl_reverse]
  rfl

theorem covered_addBlock {count : Nat} {intervals : Intervals} (h : Unbound count intervals)
    (hv : v < count) (hroom : HasRoom body n b) (hreads : ReadsBehind v (body.block b).ops)
    (hold : ∀ q, Covered (intervals.of v).ranges q → n.blockStop b ≤ q) :
    Covered (Intervals.of (addBlock body n l intervals b) v).ranges q ↔
      Covered (intervals.of v).ranges q ∨ Occupies body n l b v q := by
  have hthrough : Unbound count ((l.liveOutOf b).foldl (fun intervals v =>
      intervals.modify v (·.addRange (n.blockStart b) (n.blockStop b))) intervals) :=
    h.foldl_modify (fun _ => keepsValue_addRange _ _) _
  obtain ⟨hunbound, hiff⟩ := covered_foldr_addOp hthrough hv hold
    (fun q => covered_foldl_addRange h hv (n.blockStart b) (n.blockStop b) (l.liveOutOf b))
    (body.block b).ops 0 hroom.room hreads
  have hstart : n.blockStart b ≤ n.blockStop b := by
    rw [hroom]
    exact Nat.le_add_right _ _
  rw [addBlock_eq, covered_foldl_defineAt hunbound hv, hiff q, occupies_iff, or_assoc,
    or_comm (b := _ ∧ q = _)]
  · rfl
  · intro r hr
    rcases (hiff r).1 hr with hr | hr
    · exact Nat.le_trans hstart (hold r hr)
    · exact (hr.bounds hroom.room).1

end Block

/-! ## All blocks -/

section Body

variable {body : Body} {l : Liveness} {v : Operand} {q : Nat}

theorem readsBehind_of_regular (h : body.Regular) {b : BlockId} (hb : b < body.blockCount)
    (v : Operand) : ReadsBehind v (body.block b).ops := by
  have hnodup := List.nodup_append.1 (Body.nodup_definedValues_block h.defined_nodup hb)
  refine ⟨hnodup.2.1, fun i j op op' hop huse hop' hdest => ?_⟩
  obtain ⟨inScope, hscope⟩ := h.in_scope
  have hdef : v ∈ (body.block b).opDests :=
    List.mem_filterMap.2 ⟨op', List.mem_of_getElem? hop', hdest⟩
  rcases hscope.use b hb i op hop v huse with hin | hphi | hbefore
  · exact absurd hin (h.not_inScope hscope hb (List.mem_append_right _ hdef))
  · exact absurd rfl (hnodup.2.2 v hphi v hdef)
  · obtain ⟨k, o, hk, ho, hdest'⟩ := Block.mem_destsBefore.1 hbefore
    rwa [Block.index_eq_of_dest hnodup.2.1 hop' hdest ho hdest']

theorem hasRoom_of_regular (h : body.Regular) {b : BlockId} (hb : b < body.blockCount) :
    HasRoom body (Numbering.ofBody body) b :=
  Numbering.blockStop_eq (h.mem_reversePostorder.2 hb)

theorem covered_intervalsOf (h : body.Regular) (hv : v < body.valueCount) :
    Covered (Intervals.of (intervalsOf body (Numbering.ofBody body) l) v).ranges q ↔
      ∃ b < body.blockCount, Occupies body (Numbering.ofBody body) l b v q := by
  have hfold : ∀ (before rest : List BlockId), body.reversePostorder = before ++ rest →
      Unbound body.valueCount (rest.foldr (fun b is => addBlock body (Numbering.ofBody body) l is b)
        ((Array.range body.valueCount).map fun v => { value := v })) ∧
      ∀ q, Covered (Intervals.of (rest.foldr (fun b is =>
          addBlock body (Numbering.ofBody body) l is b)
          ((Array.range body.valueCount).map fun v => { value := v })) v).ranges q ↔
        ∃ b ∈ rest, Occupies body (Numbering.ofBody body) l b v q := by
    intro before rest
    induction rest generalizing before with
    | nil =>
      intro _
      refine ⟨unbound_initial body.valueCount, fun q => ?_⟩
      simp [of_initial]
    | cons c rest ih =>
      intro horder
      have hc : c < body.blockCount := h.mem_reversePostorder.1 (by simp [horder])
      obtain ⟨hunbound, hiff⟩ := ih (before ++ [c]) (by simpa using horder)
      rw [List.foldr_cons]
      refine ⟨hunbound.addBlock body _ l c, fun q => ?_⟩
      rw [covered_addBlock hunbound hv (hasRoom_of_regular h hc) (readsBehind_of_regular h hc v),
        hiff q, or_comm]
      · simp
      · -- the blocks entered already come later in the order
        intro r hr
        obtain ⟨b, hb, hocc⟩ := (hiff r).1 hr
        have hbcount : b < body.blockCount := h.mem_reversePostorder.1 (by simp [horder, hb])
        obtain ⟨first, second, rfl⟩ := List.append_of_mem hb
        have horder' : body.reversePostorder = (before ++ c :: first) ++ b :: second := by
          simpa using horder
        exact Nat.le_trans (Numbering.blockStop_le_blockStart horder' (by simp))
          (hocc.bounds (hasRoom_of_regular h hbcount)).1
  unfold intervalsOf
  rw [List.foldl_reverse]
  refine ((hfold [] body.reversePostorder rfl).2 q).trans ?_
  simp only [h.mem_reversePostorder]

end Body

/-! ## Where a value has to be covered -/

section Places

variable {body : Body} {b : BlockId} {v : Operand} {l : Liveness}

variable (h : body.Regular)
include h

theorem occupies_end (hb : b < body.blockCount) (hv : v ∈ l.liveOutOf b) :
    Occupies body (Numbering.ofBody body) l b v ((Numbering.ofBody body).blockStop b - 1) := by
  have hroom := hasRoom_of_regular h hb
  refine .inr ⟨?_, ?_, fun d hd => ?_, .inl hv⟩
  · rw [hroom, extent]
    omega
  · rw [hroom, extent]
    omega
  · cases hd with
    | phi hphi =>
      rw [hroom, extent]
      omega
    | op hop hdest =>
      have hi := (List.getElem?_eq_some_iff.1 hop).1
      rw [hroom, extent]
      unfold Numbering.position
      omega

end Places

end BytecodeOpt.Allocation
