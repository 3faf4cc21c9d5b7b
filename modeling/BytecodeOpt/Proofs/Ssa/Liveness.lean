import BytecodeOpt.Proofs.BitSet
import BytecodeOpt.Proofs.Ssa.WellFormed
import BytecodeOpt.Ssa.Liveness
import Mathlib.Data.Finset.Prod

/-!
# Liveness as a solution of its equations

The sweeps end at sets that no equation adds to.  Whatever holds of all values that blocks read, and
moves back over edges and past definitions of other values, holds of every live value.
-/

namespace BytecodeOpt.Ssa

open BitSet

namespace Liveness

/-! ## What a block reads and defines -/

section Local

variable {n : Nat} {l : Local}

def Local.Fits (n : Nat) (l : Local) : Prop := l.exposed.Fits n ∧ l.defined.Fits n

theorem Local.foldl_define (h : l.Fits n) (vs : List Operand) (v : Operand) :
    ((vs.foldl Local.define l).Fits n ∧ (vs.foldl Local.define l).exposed = l.exposed) ∧
      ((vs.foldl Local.define l).defined.contains v = true ↔
        l.defined.contains v = true ∨ ∃ w ∈ vs, v = w ∧ w < n) := by
  refine Table.foldl_adds (P := fun l' : Local => l'.Fits n ∧ l'.exposed = l.exposed)
    (Q := fun l' : Local => l'.defined.contains v = true) (fun l' hl' w _ => ?_) ⟨h, rfl⟩
  exact ⟨⟨⟨hl'.1.1, fits_insert hl'.1.2 w⟩, hl'.2⟩, (contains_insert hl'.1.2).trans or_comm⟩

theorem Local.foldl_read (h : l.Fits n) (vs : List Operand) (v : Operand) :
    ((vs.foldl Local.read l).Fits n ∧ (vs.foldl Local.read l).defined = l.defined) ∧
      ((vs.foldl Local.read l).exposed.contains v = true ↔
        l.exposed.contains v = true ∨ ∃ w ∈ vs, v = w ∧ w < n ∧ l.defined.contains w = false) := by
  refine Table.foldl_adds (P := fun l' : Local => l'.Fits n ∧ l'.defined = l.defined)
    (Q := fun l' : Local => l'.exposed.contains v = true) (fun l' hl' w _ => ?_) ⟨h, rfl⟩
  unfold Local.read
  rw [hl'.2]
  split
  · grind
  · rename_i hnot
    refine ⟨⟨⟨fits_insert hl'.1.1 w, h.2⟩, rfl⟩, ?_⟩
    simp only [contains_insert hl'.1.1, Bool.eq_false_iff.2 hnot, and_true]
    exact or_comm

theorem Local.step_spec (h : l.Fits n) (op : Op) (v : Operand) :
    (l.step op).Fits n ∧
      ((l.step op).defined.contains v = true ↔ l.defined.contains v = true ∨
        (v < n ∧ op.dest? = some v)) ∧
      ((l.step op).exposed.contains v = true ↔
        l.exposed.contains v = true ∨ (v < n ∧ v ∈ op.uses ∧ l.defined.contains v = false)) := by
  obtain ⟨⟨hfits, hdefined⟩, hexposed⟩ := Local.foldl_read h op.uses v
  obtain ⟨⟨hfits', hexposed'⟩, hdefined'⟩ := Local.foldl_define hfits op.dest?.toList v
  refine ⟨hfits', ?_, ?_⟩
  · rw [Local.step, hdefined', hdefined]
    simp [and_comm]
  · rw [Local.step, hexposed', hexposed]
    simp [and_left_comm]

def ReadFirst (ops : List Op) (v : Operand) : Prop :=
  ∃ i op, ops[i]? = some op ∧ v ∈ op.uses ∧ v ∉ (ops.take i).filterMap Op.dest?

theorem readFirst_cons {op : Op} {ops : List Op} {v : Operand} :
    ReadFirst (op :: ops) v ↔ v ∈ op.uses ∨ (op.dest? ≠ some v ∧ ReadFirst ops v) := by
  have hcons : ∀ {before : List Op}, v ∉ (op :: before).filterMap Op.dest? ↔
      op.dest? ≠ some v ∧ v ∉ before.filterMap Op.dest? := by
    simp only [List.mem_filterMap, List.exists_mem_cons_iff, not_or, ne_eq, implies_true]
  constructor
  · rintro ⟨_ | i, o, hop, huse, hnot⟩
    · grind
    · obtain ⟨hdest, hnot⟩ := hcons.1 hnot
      exact .inr ⟨hdest, i, o, hop, huse, hnot⟩
  · rintro (huse | ⟨hdest, i, o, hop, huse, hnot⟩)
    · exact ⟨0, op, rfl, huse, by simp⟩
    · exact ⟨i + 1, o, hop, huse, hcons.2 ⟨hdest, hnot⟩⟩

theorem Local.foldl_step (h : l.Fits n) (ops : List Op) (v : Operand) :
    (ops.foldl Local.step l).Fits n ∧
      ((ops.foldl Local.step l).defined.contains v = true ↔
        l.defined.contains v = true ∨ (v < n ∧ v ∈ ops.filterMap Op.dest?)) ∧
      ((ops.foldl Local.step l).exposed.contains v = true ↔
        l.exposed.contains v = true ∨
          (v < n ∧ l.defined.contains v = false ∧ ReadFirst ops v)) := by
  induction ops generalizing l with
  | nil => simpa [ReadFirst] using h
  | cons op ops ih =>
    obtain ⟨hfits, hdefined, hexposed⟩ := Local.step_spec h op v
    obtain ⟨hfits', hdefined', hexposed'⟩ := ih hfits
    refine ⟨hfits', ?_, ?_⟩
    · grind
    · rw [List.foldl_cons, hexposed', hexposed, readFirst_cons]
      simp only [← Bool.not_eq_true, hdefined]
      grind

theorem ofBlock_spec (n : Nat) (b : Block) (v : Operand) :
    (ofBlock n b).Fits n ∧ ((ofBlock n b).defined.contains v = true ↔ v < n ∧ v ∈ b.definedValues) ∧
      ((ofBlock n b).exposed.contains v = true ↔ v < n ∧ v ∉ b.phiDests ∧ ReadFirst b.ops v) := by
  have hempty : (⟨.empty n, .empty n⟩ : Local).Fits n := ⟨fits_empty n, fits_empty n⟩
  obtain ⟨⟨hphis, hexposed⟩, hdefined⟩ := Local.foldl_define hempty (b.phis.map Phi.dest) v
  obtain ⟨hfits, hdefined', hexposed'⟩ := Local.foldl_step hphis b.ops v
  have hdests : (∃ w ∈ b.phis.map Phi.dest, v = w ∧ w < n) ↔ v < n ∧ v ∈ b.phiDests := by
    simp [Block.phiDests, and_comm]
  rw [contains_empty, hdests] at hdefined
  refine ⟨hfits, ?_, ?_⟩
  · rw [ofBlock, hdefined', hdefined, Block.definedValues, List.mem_append, Block.opDests]
    simp only [Bool.false_eq_true, false_or]
    exact and_or_left.symm
  · rw [ofBlock, hexposed', hexposed, ← Bool.not_eq_true, hdefined]
    simp only [contains_empty, Bool.false_eq_true, false_or]
    tauto

end Local

/-! ## A set for each block -/

section Sets

variable {count n : Nat} {sets : Array BitSet} {v : Operand} {b : BlockId}

def Holds (sets : Array BitSet) (b : BlockId) (v : Operand) : Prop :=
  (sets.getD b default).contains v = true

structure Sets (count n : Nat) (sets : Array BitSet) : Prop where
  size : sets.size = count
  fits : ∀ b < count, (sets.getD b default).Fits n

section

variable (h : Sets count n sets)
include h

theorem Sets.lt_of_holds (hv : Holds sets b v) : b < count ∧ v < n := by
  by_cases hb : b < count
  · exact ⟨hb, (h.fits b hb).lt_of_contains hv⟩
  · rw [Holds, Table.getD_of_le (by rw [h.size]; exact Nat.le_of_not_lt hb), contains_default] at hv
    cases hv

theorem Sets.mem_toList : v ∈ (sets.getD b default).toList ↔ Holds sets b v := by
  by_cases hb : b < count
  · exact BitSet.mem_toList (h.fits b hb)
  · rw [Holds, Table.getD_of_le (by rw [h.size]; exact Nat.le_of_not_lt hb), contains_default]
    simp [toList, storage, wordSize, default, instInhabitedBitSet.default]

theorem Sets.modify {f : BitSet → BitSet}
    (hf : ∀ s, s.Fits n → (f s).Fits n) (b : BlockId) : Sets count n (sets.modify b f) := by
  refine ⟨by simpa using h.size, fun c hc => ?_⟩
  rw [Table.getD_modify]
  split
  · exact hf _ (h.fits c hc)
  · exact h.fits c hc

theorem Sets.holds_modify {f : BitSet → BitSet} {added : Operand → Prop}
    (hf : ∀ s, s.Fits n → ∀ v, (f s).contains v = true ↔ s.contains v = true ∨ added v)
    {b c : BlockId} (hb : b < count) :
    Holds (sets.modify b f) c v ↔ Holds sets c v ∨ (c = b ∧ added v) := by
  unfold Holds
  rw [Table.getD_modify]
  by_cases hc : b = c
  · subst hc
    rw [if_pos ⟨rfl, h.size.symm ▸ hb⟩, hf _ (h.fits b hb)]
    simp
  · grind

theorem Sets.ext {sets' : Array BitSet} (h' : Sets count n sets')
    (hiff : ∀ b v, Holds sets b v ↔ Holds sets' b v) : sets = sets' := by
  refine Array.ext (h.size.trans h'.size.symm) fun b hb hb' => ?_
  have hcount : b < count := h.size ▸ hb
  have heq := (h.fits b hcount).ext (h'.fits b hcount) fun v => hiff b v
  rwa [Table.getD_of_lt hb, Table.getD_of_lt hb'] at heq

end

theorem sets_replicate (count n : Nat) : Sets count n (Array.replicate count (.empty n)) := by
  refine ⟨by simp, fun b hb => ?_⟩
  rw [Table.getD_replicate, if_pos hb]
  exact fits_empty n

theorem not_holds_replicate : ¬ Holds (Array.replicate count (.empty n)) b v := by
  rw [Holds, Table.getD_replicate]
  split <;> simp

theorem Sets.foldl_insert (h : Sets count n sets) {pairs : List (Operand × BlockId)}
    (hpairs : ∀ e ∈ pairs, e.2 < count ∧ e.1 < n) (b : BlockId) (v : Operand) :
    Sets count n (pairs.foldl (fun sets e => sets.modify e.2 (·.insert e.1)) sets) ∧
      (Holds (pairs.foldl (fun sets e => sets.modify e.2 (·.insert e.1)) sets) b v ↔
        Holds sets b v ∨ (v, b) ∈ pairs) := by
  have hmem : (v, b) ∈ pairs ↔ ∃ e ∈ pairs, (v, b) = e := by simp
  rw [hmem]
  refine Table.foldl_adds (P := Sets count n) (Q := (Holds · b v)) (fun sets h e he => ?_) h
  obtain ⟨hblock, hvalue⟩ := hpairs e he
  have hinsert : ∀ s : BitSet, s.Fits n → ∀ v,
      (s.insert e.1).contains v = true ↔ s.contains v = true ∨ v = e.1 := by
    intro s hs v
    rw [contains_insert hs, or_comm, and_iff_left hvalue]
  refine ⟨h.modify (fun s hs => fits_insert hs e.1) e.2, ?_⟩
  rw [h.holds_modify hinsert hblock, Prod.ext_iff, and_comm (a := b = e.2)]

end Sets

/-! ## Sweeps -/

section Sweeps

variable {count n : Nat} {p : Problem} {l l' : Liveness} {order : List BlockId} {b : BlockId}

structure Problem.Fits (count n : Nat) (p : Problem) : Prop where
  locals : ∀ b < count, (p.locals.getD b default).Fits n
  phiReads : Sets count n p.phiReads
  successors : ∀ b < count, ∀ s ∈ p.successors.getD b [], s < count

structure Fits (count n : Nat) (l : Liveness) : Prop where
  liveIn : Sets count n l.liveIn
  liveOut : Sets count n l.liveOut

def Problem.Leaves (p : Problem) (l : Liveness) (b : BlockId) (v : Operand) : Prop :=
  Holds p.phiReads b v ∨ ∃ s ∈ p.successors.getD b [], Holds l.liveIn s v

def Problem.Enters (p : Problem) (l : Liveness) (b : BlockId) (v : Operand) : Prop :=
  (p.Leaves l b v ∧ (p.locals.getD b default).defined.contains v = false) ∨
    (p.locals.getD b default).exposed.contains v = true

theorem outOf_spec (hp : p.Fits count n) (h : l.Fits count n) (hb : b < count) (v : Operand) :
    (p.outOf l b).Fits n ∧ ((p.outOf l b).contains v = true ↔ p.Leaves l b v) := by
  refine Table.foldl_adds (P := BitSet.Fits n) (Q := fun out => out.contains v = true)
    (fun out hout s hs => ?_) (hp.phiReads.fits b hb)
  have hfits := h.liveIn.fits s (hp.successors b hb s hs)
  exact ⟨fits_union hout hfits, contains_union hout hfits⟩

theorem inTo_spec (hp : p.Fits count n) (h : l.Fits count n) (hb : b < count) (v : Operand) :
    (p.inTo (p.outOf l b) b).Fits n ∧ ((p.inTo (p.outOf l b) b).contains v = true ↔
      p.Enters l b v) := by
  obtain ⟨hout, hiff⟩ := outOf_spec hp h hb v
  obtain ⟨hexposed, hdefined⟩ := hp.locals b hb
  have hdiff := fits_difference (t := (p.locals.getD b default).defined) hout
  refine ⟨fits_union hdiff hexposed, ?_⟩
  rw [Problem.inTo, contains_union hdiff hexposed, contains_difference hout hdefined, hiff]
  rfl

theorem update_spec (hp : p.Fits count n) (h : l.Fits count n) (hb : b < count) :
    (p.update l b).Fits count n ∧
      (∀ c v, Holds (p.update l b).liveIn c v ↔ Holds l.liveIn c v ∨ (c = b ∧ p.Enters l b v)) ∧
      ∀ c v, Holds (p.update l b).liveOut c v ↔ Holds l.liveOut c v ∨ (c = b ∧ p.Leaves l b v) := by
  have hout := (outOf_spec hp h hb 0).1
  have hin := (inTo_spec hp h hb 0).1
  refine ⟨⟨h.liveIn.modify (fun s hs => fits_union hs hin) b,
    h.liveOut.modify (fun s hs => fits_union hs hout) b⟩, fun c v => ?_, fun c v => ?_⟩
  · exact h.liveIn.holds_modify (fun s hs v => by
      rw [contains_union hs hin, (inTo_spec hp h hb v).2]) hb
  · exact h.liveOut.holds_modify (fun s hs v => by
      rw [contains_union hs hout, (outOf_spec hp h hb v).2]) hb

def Below (l l' : Liveness) : Prop :=
  (∀ b v, Holds l.liveIn b v → Holds l'.liveIn b v) ∧ ∀ b v, Holds l.liveOut b v →
    Holds l'.liveOut b v

theorem Below.trans {l₁ l₂ l₃ : Liveness} (h : Below l₁ l₂) (h' : Below l₂ l₃) : Below l₁ l₃ :=
  ⟨fun b v hv => h'.1 b v (h.1 b v hv), fun b v hv => h'.2 b v (h.2 b v hv)⟩

theorem Below.antisymm (hl : l.Fits count n) (hl' : l'.Fits count n) (h : Below l l')
    (h' : Below l' l) : l = l' := by
  have hin := hl.liveIn.ext hl'.liveIn fun b v => ⟨h.1 b v, h'.1 b v⟩
  have hout := hl.liveOut.ext hl'.liveOut fun b v => ⟨h.2 b v, h'.2 b v⟩
  cases l
  cases l'
  simp_all

theorem below_update (hp : p.Fits count n) (h : l.Fits count n) (hb : b < count) :
    Below l (p.update l b) := by
  obtain ⟨-, hin, hout⟩ := update_spec hp h hb
  exact ⟨fun c v hv => (hin c v).2 (.inl hv), fun c v hv => (hout c v).2 (.inl hv)⟩

theorem foldl_update (hp : p.Fits count n) (h : l.Fits count n) (horder : ∀ b ∈ order, b < count) :
    (order.foldl p.update l).Fits count n ∧ Below l (order.foldl p.update l) := by
  refine List.foldlRecOn order p.update (motive := fun l' => l'.Fits count n ∧ Below l l')
    ⟨h, fun _ _ => id, fun _ _ => id⟩ fun l' hl' b hb => ?_
  have hb := horder b hb
  exact ⟨(update_spec hp hl'.1 hb).1, hl'.2.trans (below_update hp hl'.1 hb)⟩

theorem update_of_foldl_update (hp : p.Fits count n) (h : l.Fits count n)
    (horder : ∀ b ∈ order, b < count)
    (hstable : order.foldl p.update l = l) (hb : b ∈ order) : p.update l b = l := by
  induction order with
  | nil => simp at hb
  | cons c order ih =>
    have hc := horder c List.mem_cons_self
    have hrest := fun d hd => horder d (List.mem_cons_of_mem c hd)
    have hfits := (update_spec hp h hc).1
    have hbelow := (foldl_update hp hfits hrest).2
    rw [← List.foldl_cons, hstable] at hbelow
    have hsame : p.update l c = l := hbelow.antisymm hfits h (below_update hp h hc)
    rcases List.mem_cons.1 hb with rfl | hb
    · exact hsame
    · rw [List.foldl_cons, hsame] at hstable
      exact ih hrest hstable hb

/-! ## The number of sweeps -/

def members (count n : Nat) (sets : Array BitSet) : Finset (BlockId × Operand) :=
  (Finset.range count ×ˢ Finset.range n).filter fun e => (sets.getD e.1 default).contains e.2

theorem Sets.mem_members {sets : Array BitSet} (h : Sets count n sets) {e : BlockId × Operand} :
    e ∈ members count n sets ↔ Holds sets e.1 e.2 := by
  rw [members, Finset.mem_filter, Finset.mem_product, Finset.mem_range, Finset.mem_range]
  exact and_iff_right_of_imp h.lt_of_holds

def weight (count n : Nat) (l : Liveness) :
    Nat := (members count n l.liveIn).card + (members count n l.liveOut).card

theorem weight_le (count n : Nat) (l : Liveness) : weight count n l ≤ 2 * count * n := by
  have hcard (sets : Array BitSet) : (members count n sets).card ≤ count * n :=
    (Finset.card_filter_le _ _).trans (by simp)
  have hin := hcard l.liveIn
  have hout := hcard l.liveOut
  rw [weight, Nat.mul_assoc]
  omega

theorem weight_lt (hl : l.Fits count n) (hl' : l'.Fits count n) (h : Below l l') (hne : l ≠ l') :
    weight count n l < weight count n l' := by
  have hin : members count n l.liveIn ⊆ members count n l'.liveIn := fun e he =>
    hl'.liveIn.mem_members.2 (h.1 _ _ (hl.liveIn.mem_members.1 he))
  have hout : members count n l.liveOut ⊆ members count n l'.liveOut := fun e he =>
    hl'.liveOut.mem_members.2 (h.2 _ _ (hl.liveOut.mem_members.1 he))
  have hin' := Finset.card_le_card hin
  have hout' := Finset.card_le_card hout
  refine Nat.lt_of_le_of_ne (Nat.add_le_add hin' hout') fun hsame => hne (h.antisymm hl hl' ?_)
  unfold weight at hsame
  refine ⟨fun b v hv => ?_, fun b v hv => ?_⟩
  · rw [← hl'.liveIn.mem_members (e := (b, v)), ← Finset.eq_of_subset_of_card_le hin
      (by omega)] at hv
    exact hl.liveIn.mem_members.1 hv
  · rw [← hl'.liveOut.mem_members (e := (b, v)), ← Finset.eq_of_subset_of_card_le hout
      (by omega)] at hv
    exact hl.liveOut.mem_members.1 hv

theorem solve_stable (hp : p.Fits count n) (horder : ∀ b ∈ order, b < count) (rounds : Nat)
    (h : l.Fits count n) (hrounds : 2 * count * n < rounds + weight count n l) :
    (p.solve order rounds l).Fits count n ∧ order.foldl p.update (p.solve order rounds l) =
      p.solve order rounds l := by
  induction rounds generalizing l with
  | zero =>
    have := weight_le count n l
    omega
  | succ rounds ih =>
    obtain ⟨hfits, hbelow⟩ := foldl_update hp h horder
    rw [Problem.solve]
    split
    · exact ⟨h, ‹_›⟩
    · rename_i hne
      have hweight := weight_lt h hfits hbelow (Ne.symm hne)
      exact ih hfits (by omega)

theorem solve_within (hp : p.Fits count n) (horder : ∀ b ∈ order, b < count)
    (enters leaves : BlockId → Operand → Prop)
    (hleaves : ∀ b < count, ∀ v, (Holds p.phiReads b v ∨ ∃ s ∈ p.successors.getD b [], enters s v) →
      leaves b v)
    (henters : ∀ b < count, ∀ v,
      ((leaves b v ∧ (p.locals.getD b default).defined.contains v = false) ∨
        (p.locals.getD b default).exposed.contains v = true) → enters b v) (rounds : Nat)
          (h : l.Fits count n)
    (hin : ∀ b v, Holds l.liveIn b v → enters b v)
    (hout : ∀ b v, Holds l.liveOut b v → leaves b v) :
    (∀ b v, Holds (p.solve order rounds l).liveIn b v → enters b v) ∧
      ∀ b v, Holds (p.solve order rounds l).liveOut b v → leaves b v := by
  have hstep : ∀ l, (l.Fits count n ∧ (∀ b v, Holds l.liveIn b v → enters b v) ∧
      ∀ b v, Holds l.liveOut b v → leaves b v) → ∀ b ∈ order, (p.update l b).Fits count n ∧
        (∀ c v, Holds (p.update l b).liveIn c v → enters c v) ∧
        ∀ c v, Holds (p.update l b).liveOut c v → leaves c v := by
    rintro l ⟨h, hin, hout⟩ b hb
    have hb := horder b hb
    obtain ⟨hfits, hin', hout'⟩ := update_spec hp h hb
    have hleave : ∀ v, p.Leaves l b v → leaves b v := fun v hv =>
      hleaves b hb v (hv.imp_right fun ⟨s, hs, hsv⟩ => ⟨s, hs, hin s v hsv⟩)
    refine ⟨hfits, fun c v hv => ?_, fun c v hv => ?_⟩
    · rcases (hin' c v).1 hv with hv | ⟨rfl, hv⟩
      · exact hin c v hv
      · exact henters c hb v (hv.imp_left fun hv => ⟨hleave v hv.1, hv.2⟩)
    · grind
  induction rounds generalizing l with
  | zero => exact ⟨hin, hout⟩
  | succ rounds ih =>
    rw [Problem.solve]
    split
    · exact ⟨hin, hout⟩
    · obtain ⟨hfits, hin', hout'⟩ := List.foldlRecOn order p.update (motive := _)
        ⟨h, hin, hout⟩ hstep
      exact ih hfits hin' hout'

end Sweeps

end Liveness

/-! ## The liveness of a body -/

namespace Body

variable {body : Body} {exit : BlockId → BlockId → Nat} {inScope : BlockId → Operand → Prop}
  {b : BlockId} {v : Operand}

theorem Available.inScope_or_mem {i : Nat} (h : body.Available inScope b i v) :
    inScope b v ∨ v ∈ (body.block b).definedValues := by
  rcases h with hv | hv | hv
  · exact .inl hv
  · exact .inr (List.mem_append_left _ hv)
  · exact .inr (List.mem_append_right _ (Block.mem_opDests_of_mem_destsBefore hv))

/-- What is in scope is defined by a block that comes earlier in the order. -/
theorem Scoped.exists_before (h : body.Scoped exit inScope) {before after : List BlockId}
    (horder : body.reversePostorder = before ++ b :: after) (hv : inScope b v) :
    ∃ c ∈ before, v ∈ (body.block c).definedValues := by
  -- some block before `b` leads to it, and the value comes from there
  induction hlength : before.length using Nat.strongRecOn generalizing before b after with
  | _ length ih =>
    rcases body.graph.led_reversePostorder 0 before b after horder with rfl | ⟨c, hc, hedge⟩
    · exact absurd hv (h.entry v)
    · have hlt : c < body.blockCount := by
        rw [← size_graph]
        exact Digraph.lt_size_of_mem_successors hedge
      rw [successors_graph] at hedge
      rcases (h.edge c hlt b hedge v hv).inScope_or_mem with hscope | hdef
      · obtain ⟨first, second, rfl⟩ := List.append_of_mem hc
        have hshorter : first.length < length := by grind
        obtain ⟨d, hd, hdef⟩ := ih _ hshorter (by simpa using horder) hscope rfl
        exact ⟨d, by simp [hd], hdef⟩
      · exact ⟨c, hc, hdef⟩

theorem Regular.mem_reversePostorder (h : body.Regular) :
    b ∈ body.reversePostorder ↔ b < body.blockCount := by
  rw [reversePostorder, Digraph.mem_reversePostorder]
  constructor
  · intro hreach
    have := hreach.lt_size
    rwa [size_graph] at this
  · exact h.reachable b

theorem Regular.mem_definedValues_of_inScope (h : body.Regular) (hs : body.Scoped exit inScope)
    (hb : b < body.blockCount) (hv : inScope b v) : v ∈ body.definedValues := by
  obtain ⟨before, after, heq⟩ := List.append_of_mem (h.mem_reversePostorder.2 hb)
  obtain ⟨c, hc, hdef⟩ := hs.exists_before heq hv
  exact mem_definedValues.2 ⟨c, h.mem_reversePostorder.1 (by simp [heq, hc]), hdef⟩

theorem Regular.not_inScope (h : body.Regular) (hs : body.Scoped exit inScope)
    (hb : b < body.blockCount) (hdef : v ∈ (body.block b).definedValues) : ¬ inScope b v := by
  intro hv
  have hmem := h.mem_reversePostorder.2 hb
  obtain ⟨before, after, heq⟩ := List.append_of_mem hmem
  obtain ⟨c, hc, hdef'⟩ := hs.exists_before heq hv
  have hcount : c < body.blockCount := h.mem_reversePostorder.1 (by simp [heq, hc])
  have hsame := eq_of_mem_definedValues h.defined_nodup hb hcount hdef hdef'
  have hnodup := body.graph.nodup_reversePostorder 0
  rw [← reversePostorder, heq, List.nodup_append] at hnodup
  exact hnodup.2.2 c hc b List.mem_cons_self hsame.symm

theorem Regular.lt_of_available (h : body.Regular) (hs : body.Scoped exit inScope)
    (hb : b < body.blockCount)
    {i : Nat} (hv : body.Available inScope b i v) : v < body.valueCount := by
  rcases hv.inScope_or_mem with hscope | hdef
  · exact h.defined_lt v (h.mem_definedValues_of_inScope hs hb hscope)
  · exact h.defined_lt v (Body.mem_definedValues.2 ⟨b, hb, hdef⟩)

end Body

namespace Liveness

variable {body : Body} {b : BlockId} {v : Operand}

structure Solves (body : Body) (l : Liveness) : Prop where
  read : ∀ b < body.blockCount, ∀ (i : Nat) (op : Op), (body.block b).ops[i]? = some op →
    ∀ v ∈ op.uses, v ∉ (body.block b).phiDests → v ∉ (body.block b).destsBefore i → v ∈ l.liveInto b
  through : ∀ b < body.blockCount, ∀ v ∈ l.liveOutOf b, v ∉ (body.block b).definedValues →
    v ∈ l.liveInto b
  edge : ∀ b < body.blockCount, ∀ s ∈ (body.block b).successors, ∀ v ∈ l.liveInto s,
    v ∈ l.liveOutOf b
  phi : ∀ b < body.blockCount, ∀ phi ∈ (body.block b).phis,
    ∀ e ∈ phi.operands.zip (body.block b).preds, e.1 ∈ l.liveOutOf e.2
  into : ∀ b < body.blockCount, ∀ v ∈ l.liveInto b, v ∈ l.liveOutOf b ∨
    ∃ (i : Nat) (op : Op), (body.block b).ops[i]? = some op ∧ v ∈ op.uses

structure Within (body : Body) (inScope : BlockId → Operand → Prop) (l : Liveness) : Prop where
  into : ∀ b, ∀ v ∈ l.liveInto b, inScope b v
  out : ∀ b, ∀ v ∈ l.liveOutOf b, body.Available inScope b (body.block b).ops.length v

def problemOf (body : Body) : Problem where
  locals := body.blocks.map (ofBlock body.valueCount)
  phiReads := phiReads body
  successors := body.blocks.map Block.successors

theorem locals_problemOf (hb : b < body.blockCount) :
    (problemOf body).locals.getD b default = ofBlock body.valueCount (body.block b) := by
  have hsize : b < body.blocks.size := hb
  rw [problemOf, Table.getD_map, dif_pos hsize, Body.block, Table.getD_of_lt hsize]

theorem successors_problemOf (b : BlockId) :
    (problemOf body).successors.getD b [] = (body.block b).successors :=
  body.successors_graph b

theorem phiReads_spec (h : body.Regular) :
    Sets body.blockCount body.valueCount (phiReads body) ∧
      ∀ b v, Holds (phiReads body) b v ↔
        ∃ c < body.blockCount, ∃ phi ∈ (body.block c).phis,
          (v, b) ∈ phi.operands.zip (body.block c).preds := by
  obtain ⟨inScope, hscope⟩ := h.in_scope
  have hmem : ∀ e : Operand × BlockId,
      e ∈ (body.blocks.toList.flatMap fun b => b.phis.flatMap fun phi => phi.operands.zip b.preds) ↔
        ∃ c < body.blockCount, ∃ phi ∈ (body.block c).phis,
          e ∈ phi.operands.zip (body.block c).preds := by
    simp [Body.blocks_toList, Body.mem_blockIds]
  have hbounds : ∀ e ∈ (body.blocks.toList.flatMap fun b =>
      b.phis.flatMap fun phi => phi.operands.zip b.preds),
      e.2 < body.blockCount ∧ e.1 < body.valueCount := by
    intro e he
    obtain ⟨c, hc, phi, hphi, he⟩ := (hmem e).1 he
    have hpred := ((h.mem_preds c hc e.2).1 (List.of_mem_zip he).2).1
    exact ⟨hpred, h.lt_of_available hscope hpred (hscope.phi c hc phi hphi e he)⟩
  have hfold := (sets_replicate body.blockCount body.valueCount).foldl_insert hbounds
  refine ⟨(hfold 0 0).1, fun b v => (hfold b v).2.trans ?_⟩
  rw [hmem (v, b)]
  exact or_iff_right not_holds_replicate

theorem problemOf_fits (h : body.Regular) :
    (problemOf body).Fits body.blockCount body.valueCount where
  locals := fun b hb => by
    rw [locals_problemOf hb]
    exact (ofBlock_spec _ _ 0).1
  phiReads := (phiReads_spec h).1
  successors := fun b hb => by
    rw [successors_problemOf]
    exact h.successors_lt b hb

def initial (body : Body) : Liveness where
  liveIn := (problemOf body).locals.map Local.exposed
  liveOut := phiReads body

theorem liveIn_initial (hb : b < body.blockCount) :
    (initial body).liveIn.getD b default = (ofBlock body.valueCount (body.block b)).exposed := by
  have hsize : b < (problemOf body).locals.size := by simpa [problemOf, Body.blockCount] using hb
  rw [initial, Table.getD_map, dif_pos hsize, ← locals_problemOf hb, Table.getD_of_lt hsize]

theorem initial_fits (h : body.Regular) : (initial body).Fits body.blockCount body.valueCount where
  liveIn := by
    refine ⟨by simp [initial, problemOf, Body.blockCount], fun b hb => ?_⟩
    rw [liveIn_initial hb]
    exact (ofBlock_spec _ _ 0).1.1
  liveOut := (phiReads_spec h).1

theorem ofBody_eq (body : Body) :
    ofBody body = (problemOf body).solve body.reversePostorder.reverse
      (2 * body.blockCount * body.valueCount + 1) (initial body) := rfl

theorem mem_order (h : body.Regular) : b ∈ body.reversePostorder.reverse ↔ b < body.blockCount := by
  rw [List.mem_reverse, h.mem_reversePostorder]

theorem fits_ofBody (h : body.Regular) : (ofBody body).Fits body.blockCount body.valueCount :=
  (solve_stable (problemOf_fits h) (fun b hb => (mem_order h).1 hb) _ (initial_fits h) (by omega)).1

theorem mem_liveInto (h : body.Regular) :
    v ∈ (ofBody body).liveInto b ↔ Holds (ofBody body).liveIn b v :=
      (fits_ofBody h).liveIn.mem_toList

theorem mem_liveOutOf (h : body.Regular) :
    v ∈ (ofBody body).liveOutOf b ↔ Holds (ofBody body).liveOut b v :=
      (fits_ofBody h).liveOut.mem_toList

theorem enters_problemOf {l : Liveness} (hb : b < body.blockCount) :
    (problemOf body).Enters l b v ↔
      ((problemOf body).Leaves l b v ∧ ¬ (v < body.valueCount ∧ v ∈ (body.block b).definedValues)) ∨
        (v < body.valueCount ∧ v ∉ (body.block b).phiDests ∧ ReadFirst (body.block b).ops v) := by
  obtain ⟨-, hdefined, hexposed⟩ := ofBlock_spec body.valueCount (body.block b) v
  rw [Problem.Enters, locals_problemOf hb, hexposed, ← hdefined, Bool.not_eq_true]

theorem ofBody_spec (h : body.Regular) (hb : b < body.blockCount) :
    (v ∈ (ofBody body).liveInto b ↔ (problemOf body).Enters (ofBody body) b v) ∧
    (v ∈ (ofBody body).liveOutOf b ↔ (problemOf body).Leaves (ofBody body) b v) := by
  have horder := fun b hb => (mem_order (b := b) h).1 hb
  have hp := problemOf_fits h
  obtain ⟨hfits, hstable⟩ := solve_stable hp horder
    (2 * body.blockCount * body.valueCount + 1) (initial_fits h) (by omega)
  rw [← ofBody_eq] at hfits hstable
  have hupdate : ∀ b < body.blockCount, (problemOf body).update (ofBody body) b = ofBody body :=
    fun b hb => update_of_foldl_update hp hfits horder hstable ((mem_order h).2 hb)
  have henters : ∀ b < body.blockCount, ∀ v, (problemOf body).Enters (ofBody body) b v →
      Holds (ofBody body).liveIn b v := by
    intro b hb v hv
    rw [← hupdate b hb]
    exact ((update_spec hp hfits hb).2.1 b v).2 (.inr ⟨rfl, hv⟩)
  have hinitial : ∀ b v, Holds (initial body).liveIn b v →
      b < body.blockCount ∧ (problemOf body).Enters (ofBody body) b v := by
    intro b v hv
    have hb := ((initial_fits h).liveIn.lt_of_holds hv).1
    rw [Holds, liveIn_initial hb, ← locals_problemOf hb] at hv
    exact ⟨hb, .inr hv⟩
  -- whatever was found on the way was found from less than there is in the end
  have hbound := solve_within hp horder
    (fun b v => b < body.blockCount ∧ (problemOf body).Enters (ofBody body) b v)
    ((problemOf body).Leaves (ofBody body))
    (fun b _ v hv => hv.imp_right fun ⟨s, hs, hsv⟩ => ⟨s, hs, henters s hsv.1 v hsv.2⟩)
    (fun b hb v hv => ⟨hb, hv⟩)
    (2 * body.blockCount * body.valueCount + 1) (initial_fits h) hinitial fun c w hw => .inl hw
  rw [← ofBody_eq] at hbound
  rw [mem_liveInto h, mem_liveOutOf h]
  refine ⟨⟨fun hv => (hbound.1 b v hv).2, henters b hb v⟩, hbound.2 b v, fun hv => ?_⟩
  rw [← hupdate b hb]
  exact ((update_spec hp hfits hb).2.2 b v).2 (.inr ⟨rfl, hv⟩)

/-- The sweeps end at a solution. -/
theorem solves_ofBody (h : body.Regular) : Solves body (ofBody body) := by
  obtain ⟨inScope, hscope⟩ := h.in_scope
  constructor
  case read =>
    intro b hb i op hop v hv hphi hnot
    refine (ofBody_spec h hb).1.2 ((enters_problemOf hb).2 (.inr ⟨?_, hphi, i, op, hop, hv, hnot⟩))
    exact h.lt_of_available hscope hb (hscope.use b hb i op hop v hv)
  case through =>
    intro b hb v hv hnot
    exact (ofBody_spec h hb).1.2
      ((enters_problemOf hb).2 (.inl ⟨(ofBody_spec h hb).2.1 hv, fun h => hnot h.2⟩))
  case edge =>
    intro b hb s hs v hv
    refine (ofBody_spec h hb).2.2 (.inr ⟨s, ?_, (mem_liveInto h).1 hv⟩)
    rwa [successors_problemOf]
  case phi =>
    intro b hb phi hphi e he
    have hpred := ((h.mem_preds b hb e.2).1 (List.of_mem_zip he).2).1
    exact (ofBody_spec h hpred).2.2 (.inl (((phiReads_spec h).2 e.2 e.1).2 ⟨b, hb, phi, hphi, he⟩))
  case into =>
    intro b hb v hv
    rcases (enters_problemOf hb).1 ((ofBody_spec h hb).1.1 hv) with ⟨hv, -⟩ | ⟨-, -, hv⟩
    · exact .inl ((ofBody_spec h hb).2.2 hv)
    · obtain ⟨i, op, hop, huse, -⟩ := hv
      exact .inr ⟨i, op, hop, huse⟩

/-- What is live is in scope. -/
theorem within_ofBody (h : body.Regular) {inScope : BlockId → Operand → Prop}
    (hscope : body.Scoped body.atEnd inScope) : Within body inScope (ofBody body) := by
  have hphi : ∀ b v, Holds (phiReads body) b v →
      body.Available inScope b (body.block b).ops.length v := by
    intro b v hv
    obtain ⟨c, hc, phi, hphi, he⟩ := ((phiReads_spec h).2 b v).1 hv
    exact hscope.phi c hc phi hphi (v, b) he
  have hread : ∀ b < body.blockCount, ∀ v, v ∉ (body.block b).phiDests →
      ReadFirst (body.block b).ops v → inScope b v := by
    rintro b hb v hnot ⟨i, op, hop, hv, hbefore⟩
    rcases hscope.use b hb i op hop v hv with hin | hphi | hdef
    · exact hin
    · exact absurd hphi hnot
    · exact absurd hdef hbefore
  have hleaves : ∀ b < body.blockCount, ∀ v,
      (Holds (problemOf body).phiReads b v ∨ ∃ s ∈ (problemOf body).successors.getD b [],
        inScope s v) →
        body.Available inScope b (body.block b).ops.length v := by
    rintro b hb v (hv | ⟨s, hs, hv⟩)
    · exact hphi b v hv
    · rw [successors_problemOf] at hs
      exact hscope.edge b hb s hs v hv
  have henters : ∀ b < body.blockCount, ∀ v,
      ((body.Available inScope b (body.block b).ops.length v ∧
          ((problemOf body).locals.getD b default).defined.contains v = false) ∨
        ((problemOf body).locals.getD b default).exposed.contains v = true) → inScope b v := by
    intro b hb v hv
    obtain ⟨-, hdefined, hexposed⟩ := ofBlock_spec body.valueCount (body.block b) v
    rw [locals_problemOf hb, hexposed, ← Bool.not_eq_true, hdefined] at hv
    rcases hv with ⟨hv, hnot⟩ | ⟨-, hnot, hv⟩
    · refine hv.inScope_or_mem.resolve_right fun hdef => hnot ⟨?_, hdef⟩
      exact h.lt_of_available hscope hb hv
    · exact hread b hb v hnot hv
  have hinitial : ∀ b v, Holds (initial body).liveIn b v → inScope b v := by
    intro b v hv
    have hb := ((initial_fits h).liveIn.lt_of_holds hv).1
    rw [Holds, liveIn_initial hb, (ofBlock_spec _ _ v).2.2] at hv
    exact hread b hb v hv.2.1 hv.2.2
  obtain ⟨hin, hout⟩ := solve_within (problemOf_fits h) (fun b hb => (mem_order h).1 hb) inScope _
    hleaves henters (2 * body.blockCount * body.valueCount + 1) (initial_fits h) hinitial hphi
  rw [← ofBody_eq] at hin hout
  exact ⟨fun b v hv => hin b v ((mem_liveInto h).1 hv),
    fun b v hv => hout b v ((mem_liveOutOf h).1 hv)⟩

end Liveness

end BytecodeOpt.Ssa
