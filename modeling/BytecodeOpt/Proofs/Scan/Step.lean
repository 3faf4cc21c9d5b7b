import BytecodeOpt.Allocation.LinearScan
import BytecodeOpt.Proofs.Interval
import BytecodeOpt.Proofs.Table

/-!
# The linear scan keeps live pieces apart

Every piece is either queued or has a register.  A placed piece that has not ended is active or
inactive, and what a register is free for is read off these two lists, so a piece never gets a
register that another one holds at a common position.  Splitting keeps the positions of each value
together.
-/

namespace BytecodeOpt.Allocation

def Interval.Disjoint (i j : Interval) : Prop := ∀ p, Covered i.ranges p → ¬ Covered j.ranges p

theorem Interval.Disjoint.symm {i j : Interval} (h : i.Disjoint j) : j.Disjoint i :=
  fun p hj hi => h p hi hj

namespace Scan

variable {item : WorkItem} {setting : ScanSetting} {r : Reg} {free : Array Nat}
  {index position : Nat} {i : Interval} {u : Nat}

/-! ## The queue -/

theorem insertItem_perm (item : WorkItem) (queue : List WorkItem) :
    (insertItem item queue).Perm (item :: queue) := by
  induction queue with
  | nil => simp [insertItem]
  | cons other rest ih =>
    unfold insertItem
    split
    · exact List.Perm.refl _
    · exact (ih.cons other).trans (List.Perm.swap item other rest)

theorem mem_insertItem {item w : WorkItem} {queue : List WorkItem} :
    w ∈ insertItem item queue ↔ w = item ∨ w ∈ queue := by
  rw [(insertItem_perm item queue).mem_iff, List.mem_cons]

theorem start_le_of_precedes {a b : WorkItem} (h : a.precedes b = true) : a.start ≤ b.start := by
  simp only [WorkItem.precedes, Bool.or_eq_true, Bool.and_eq_true, decide_eq_true_eq] at h
  omega

theorem start_le_of_not_precedes {a b : WorkItem} (h : ¬ a.precedes b = true) :
    b.start ≤ a.start := by
  simp only [WorkItem.precedes, Bool.or_eq_true, Bool.and_eq_true, decide_eq_true_eq] at h
  omega

theorem insertItem_sorted {queue : List WorkItem}
    (h : queue.Pairwise (fun a b => a.start ≤ b.start)) :
    (insertItem item queue).Pairwise (fun a b => a.start ≤ b.start) := by
  induction queue with
  | nil => simp [insertItem]
  | cons other rest ih =>
    obtain ⟨hother, hrest⟩ := List.pairwise_cons.1 h
    unfold insertItem
    split
    · rename_i hprecedes
      have hle := start_le_of_precedes hprecedes
      refine List.pairwise_cons.2 ⟨?_, h⟩
      intro w hw
      rcases List.mem_cons.1 hw with rfl | hw
      · exact hle
      · exact Nat.le_trans hle (hother w hw)
    · rename_i hprecedes
      refine List.pairwise_cons.2 ⟨?_, ih hrest⟩
      intro w hw
      rcases mem_insertItem.1 hw with rfl | hw
      · exact start_le_of_not_precedes hprecedes
      · exact hother w hw

/-! ## Pieces after a change -/

theorem piece_assign (s : Scan) (index : Nat) (register : Reg) (i : Nat) :
    (s.assign index register).piece i =
      if index = i ∧ i < s.pieces.size then { s.piece i with register := some register }
      else s.piece i := by
  simp only [piece, assign, Table.getD_modify]

@[simp] theorem size_assign (s : Scan) (index : Nat) (register : Reg) :
    (s.assign index register).pieces.size = s.pieces.size := by
  simp [assign]

@[simp] theorem piece_advance (s : Scan) (position i : Nat) :
    (s.advance position).piece i = s.piece i :=
  rfl

theorem ranges_piece_assign (s : Scan) (index : Nat) (register : Reg) (i : Nat) :
    ((s.assign index register).piece i).ranges = (s.piece i).ranges := by
  rw [piece_assign]
  split <;> rfl

theorem value_piece_assign (s : Scan) (index : Nat) (register : Reg) (i : Nat) :
    ((s.assign index register).piece i).value = (s.piece i).value := by
  rw [piece_assign]
  split <;> rfl

theorem isFixed_piece_assign (s : Scan) (index : Nat) (register : Reg) (i : Nat) :
    ((s.assign index register).piece i).isFixed = (s.piece i).isFixed := by
  rw [piece_assign]
  split <;> rfl

/-! ## The invariant -/

/-- What holds between two steps of a scan of `given` that has come to the position `now`.  The
pieces in `queue` are those without a register yet. -/
structure Inv (given : List Interval) (now : Nat) (queue : List WorkItem) (s : Scan) : Prop where
  ordered : ∀ i < s.pieces.size, Ordered (s.piece i).ranges
  inhabited : ∀ i < s.pieces.size, (s.piece i).ranges ≠ []
  queue_index : ∀ w ∈ queue, w.index < s.pieces.size
  queue_start : ∀ w ∈ queue, w.start = (s.piece w.index).start
  queue_movable : ∀ w ∈ queue, (s.piece w.index).isFixed = false
  queue_nodup : (queue.map WorkItem.index).Nodup
  queue_sorted : queue.Pairwise (fun a b => a.start ≤ b.start)
  queue_later : ∀ w ∈ queue, now ≤ w.start
  placed : ∀ i < s.pieces.size, i ∉ queue.map WorkItem.index → ∃ r :
    Nat, (s.piece i).register = some r ∧ r < s.opened
  tracked : ∀ i < s.pieces.size, i ∉ queue.map WorkItem.index → now < (s.piece i).stop →
    i ∈ s.active ++ s.inactive
  listed : ∀ i ∈ s.active ++ s.inactive, i < s.pieces.size ∧ i ∉ queue.map WorkItem.index
  apart : ∀ i < s.pieces.size, ∀ j < s.pieces.size, i ≠ j → i ∉ queue.map WorkItem.index →
    j ∉ queue.map WorkItem.index → (s.piece i).register = (s.piece j).register →
    ¬ ((s.piece i).isFixed = true ∧ (s.piece j).isFixed = true) → (s.piece i).Disjoint (s.piece j)
  same_value : ∀ i < s.pieces.size, ∀ j < s.pieces.size, i ≠ j →
    (s.piece i).value = (s.piece j).value → (s.piece i).Disjoint (s.piece j)
  covers : ∀ v p, (∃ i < s.pieces.size, (s.piece i).value = v ∧ Covered (s.piece i).ranges p) ↔
    ∃ g ∈ given, g.value = v ∧ Covered g.ranges p
  fixed_given : ∀ i < s.pieces.size, (s.piece i).isFixed = true → s.piece i ∈ given
  given_fixed : ∀ g ∈ given, g.isFixed = true → g.ranges ≠ [] → ∃ i < s.pieces.size, s.piece i = g

variable {given : List Interval} {now : Nat} {queue : List WorkItem} {s : Scan}

theorem Inv.of_waiting (h : Inv given now queue s) (waiting : List WorkItem) :
    Inv given now queue { s with waiting } :=
  { h with }

theorem Inv.open (h : Inv given now queue s) :
    Inv given now queue { s with opened := s.opened + 1 } :=
  { h with
    placed := by
      intro i hi hq
      obtain ⟨r, hr, hlt⟩ := h.placed i hi hq
      exact ⟨r, hr, Nat.lt_succ_of_lt hlt⟩ }

theorem Inv.advance (h : Inv given now (item :: queue) s) :
    Inv given item.start (item :: queue) (s.advance item.start) :=
  { h with
    queue_later := by
      intro w hw
      rcases List.mem_cons.1 hw with rfl | hw
      · exact Nat.le_refl _
      · exact (List.pairwise_cons.1 h.queue_sorted).1 w hw
    tracked := by
      intro i hi hq hstop
      have hnow := h.queue_later item (by simp)
      have hold := h.tracked i hi hq (Nat.lt_of_le_of_lt hnow hstop)
      rw [piece_advance] at hstop
      simp only [Scan.advance, List.mem_append, List.mem_filter, decide_eq_true_eq] at hold ⊢
      by_cases hcov : (s.piece i).covers item.start = true
      · exact .inl ⟨⟨hold, hstop⟩, hcov⟩
      · exact .inr ⟨⟨hold, hstop⟩, by simpa using hcov⟩
    listed := by
      intro i hi
      refine h.listed i ?_
      simp only [Scan.advance, List.mem_append, List.mem_filter] at hi ⊢
      tauto }

/-- A register suits a piece if no piece that still counts holds it at a common position. -/
def Suits (s : Scan) (index : Nat) (register : Reg) : Prop :=
  register < s.opened ∧ ∀ j ∈ s.active ++ s.inactive, s.registerOf j = register →
    (s.piece j).Disjoint (s.piece index)

theorem registerOf_eq {i : Nat} (h : (s.piece i).register = some r) : s.registerOf i = r := by
  simp [registerOf, h]

/-- A placed piece with the same register has ended or is one that the choice looked at. -/
theorem Inv.disjoint_of_suits (h : Inv given now (item :: queue) s) (hnow : now = item.start)
    {register : Reg} (hsuits : s.Suits item.index register) {j : Nat} (hj : j < s.pieces.size)
    (hq : j ∉ (item :: queue).map WorkItem.index) (hr : (s.piece j).register = some register) :
    (s.piece j).Disjoint (s.piece item.index) := by
  have hindex := h.queue_index item (by simp)
  have hstart := h.queue_start item (by simp)
  by_cases hstop : now < (s.piece j).stop
  · exact hsuits.2 j (h.tracked j hj hq hstop) (registerOf_eq hr)
  · intro p hpj hpi
    have := Interval.lt_stop (h.ordered j hj) hpj
    have := Interval.start_le (h.ordered _ hindex) hpi
    omega

theorem Inv.assign (h : Inv given now (item :: queue) s) (hnow : now = item.start) {register : Reg}
    (hsuits : s.Suits item.index register) :
    Inv given now queue (s.assign item.index register) := by
  have hindex := h.queue_index item (by simp)
  have hnodup := List.nodup_cons.1 h.queue_nodup
  have hmovable := h.queue_movable item (by simp)
  have hself : (s.assign item.index register).piece item.index =
      { s.piece item.index with register := some register } := by
    rw [piece_assign, if_pos ⟨rfl, hindex⟩]
  have hother : ∀ i, i ≠ item.index →
      (s.assign item.index register).piece i = s.piece i := by
    intro i hi
    rw [piece_assign, if_neg (fun hc => hi hc.1.symm)]
  have hqueue : ∀ i, i ≠ item.index → i ∉ queue.map WorkItem.index →
      i ∉ (item :: queue).map WorkItem.index := by
    intro i hi hq hmem
    rcases List.mem_cons.1 hmem with rfl | hmem
    · exact hi rfl
    · exact hq hmem
  have hnew : ∀ j < s.pieces.size, j ≠ item.index → j ∉ queue.map WorkItem.index →
      (s.piece j).register = some register →
      ((s.assign item.index register).piece j).Disjoint
        ((s.assign item.index register).piece item.index) := by
    intro j hj hne hq hr p hpj hpi
    rw [ranges_piece_assign] at hpj hpi
    exact h.disjoint_of_suits hnow hsuits hj (hqueue j hne hq) hr p hpj hpi
  constructor
  case ordered =>
    intro i hi
    rw [ranges_piece_assign]
    exact h.ordered i (by simpa using hi)
  case inhabited =>
    intro i hi
    rw [ranges_piece_assign]
    exact h.inhabited i (by simpa using hi)
  case queue_index =>
    intro w hw
    simpa using h.queue_index w (by simp [hw])
  case queue_start =>
    intro w hw
    have := h.queue_start w (by simp [hw])
    simpa [Interval.start, ranges_piece_assign] using this
  case queue_movable =>
    intro w hw
    rw [isFixed_piece_assign]
    exact h.queue_movable w (by simp [hw])
  case queue_nodup => exact hnodup.2
  case queue_sorted => exact (List.pairwise_cons.1 h.queue_sorted).2
  case queue_later => exact fun w hw => h.queue_later w (by simp [hw])
  case placed =>
    intro i hi hq
    by_cases hne : i = item.index
    · rw [hne, hself]
      exact ⟨register, rfl, hsuits.1⟩
    · rw [hother i hne]
      exact h.placed i (by simpa using hi) (hqueue i hne hq)
  case tracked =>
    intro i hi hq hstop
    by_cases hne : i = item.index
    · simp [Scan.assign, hne]
    · have hstop' : now < (s.piece i).stop := by rwa [hother i hne] at hstop
      have := h.tracked i (by simpa using hi) (hqueue i hne hq) hstop'
      simp only [Scan.assign, List.mem_append] at this ⊢
      tauto
  case listed =>
    intro i hi
    simp only [Scan.assign, List.mem_append, List.mem_singleton] at hi
    by_cases hne : i = item.index
    · rw [hne]
      exact ⟨by simpa using hindex, hnodup.1⟩
    · obtain ⟨hlt, hq⟩ := h.listed i (by simp only [List.mem_append]; tauto)
      refine ⟨by simpa using hlt, fun hmem => hq ?_⟩
      simp only [List.map_cons, List.mem_cons]
      exact .inr hmem
  case apart =>
    intro i hi j hj hij hqi hqj hr hfixed
    simp only [size_assign] at hi hj
    by_cases hni : i = item.index
    · subst hni
      rw [hself, hother j hij.symm] at hr
      exact (hnew j hj hij.symm hqj hr.symm).symm
    · by_cases hnj : j = item.index
      · subst hnj
        rw [hother i hni, hself] at hr
        exact hnew i hi hni hqi hr
      · rw [hother i hni, hother j hnj] at hr hfixed ⊢
        exact h.apart i hi j hj hij (hqueue i hni hqi) (hqueue j hnj hqj) hr hfixed
  case same_value =>
    intro i hi j hj hij hv p hpi hpj
    simp only [value_piece_assign, ranges_piece_assign, size_assign] at hi hj hv hpi hpj
    exact h.same_value i hi j hj hij hv p hpi hpj
  case covers =>
    intro v p
    simp only [value_piece_assign, ranges_piece_assign, size_assign]
    exact h.covers v p
  case fixed_given =>
    intro i hi hfixed
    rw [isFixed_piece_assign] at hfixed
    have hne : i ≠ item.index := by grind
    rw [hother i hne]
    exact h.fixed_given i (by simpa using hi) hfixed
  case given_fixed =>
    intro g hg hfixed hne
    obtain ⟨i, hi, rfl⟩ := h.given_fixed g hg hfixed hne
    refine ⟨i, by simpa using hi, hother i ?_⟩
    rintro rfl
    simp [hmovable] at hfixed

/-! ## One more piece -/

structure Part (whole part : Interval) : Prop where
  value : part.value = whole.value
  isFixed : part.isFixed = whole.isFixed
  start : part.start = whole.start
  ordered : Ordered part.ranges
  inhabited : part.ranges ≠ []
  covered : ∀ p, Covered part.ranges p → Covered whole.ranges p

/-- A piece comes behind the others, and none but waiting pieces are cut.  It is bound like all that
do not wait, or it waits itself. -/
structure Adds (now : Nat) (queue queue' : List WorkItem) (s s' : Scan) : Prop where
  size : s'.pieces.size = s.pieces.size + 1
  opened : s'.opened = s.opened
  part : ∀ k < s.pieces.size, Part (s.piece k) (s'.piece k)
  kept : ∀ k < s.pieces.size, k ∉ queue.map WorkItem.index → s'.piece k = s.piece k
  ordered : Ordered (s'.piece s.pieces.size).ranges
  inhabited : (s'.piece s.pieces.size).ranges ≠ []
  apart : ∀ k < s.pieces.size, (s'.piece k).value = (s'.piece s.pieces.size).value →
    (s'.piece k).Disjoint (s'.piece s.pieces.size)
  state : ((s'.piece s.pieces.size).isFixed = true ∧ queue' = queue ∧
      s'.active ++ s'.inactive = s.active ++ s.inactive ++ [s.pieces.size] ∧
      (∃ r : Nat, (s'.piece s.pieces.size).register = some r ∧ r < s.opened) ∧
      ∀ k < s.pieces.size, k ∉ queue.map WorkItem.index → (s.piece k).isFixed = true) ∨
    ((s'.piece s.pieces.size).isFixed = false ∧ now ≤ (s'.piece s.pieces.size).start ∧
      (∃ v, queue' = insertItem ⟨(s'.piece s.pieces.size).start, v, s.pieces.size⟩ queue) ∧
      s'.active ++ s'.inactive = s.active ++ s.inactive)

variable {s' : Scan} {queue' : List WorkItem} {k : Nat}

section

variable (hadds : Adds now queue queue' s s')
include hadds

theorem Adds.cases (hk : k < s'.pieces.size) : k = s.pieces.size ∨ k < s.pieces.size := by
  have := hadds.size
  omega

theorem Adds.mem_queue {w : WorkItem} (hw : w ∈ queue') : w ∈ queue ∨
    (s'.piece s.pieces.size).isFixed = false ∧ w.index = s.pieces.size ∧
      w.start = (s'.piece s.pieces.size).start ∧ now ≤ w.start := by
  rcases hadds.state with ⟨-, rfl, -⟩ | ⟨hmovable, hlater, ⟨v, rfl⟩, -⟩
  · exact .inl hw
  · rcases mem_insertItem.1 hw with rfl | hw
    · exact .inr ⟨hmovable, rfl, rfl, hlater⟩
    · exact .inl hw

theorem Adds.not_mem_queue (hk : k ∉ queue'.map WorkItem.index) : k ∉ queue.map WorkItem.index := by
  intro hmem
  obtain ⟨w, hw, rfl⟩ := List.mem_map.1 hmem
  refine hk (List.mem_map_of_mem ?_)
  rcases hadds.state with ⟨-, rfl, -⟩ | ⟨-, -, ⟨v, rfl⟩, -⟩
  · exact hw
  · exact mem_insertItem.2 (.inr hw)

theorem Adds.bound (hk : s.pieces.size ∉ queue'.map WorkItem.index) :
    (s'.piece s.pieces.size).isFixed = true ∧ s.pieces.size ∈ s'.active ++ s'.inactive ∧
      (∃ r : Nat, (s'.piece s.pieces.size).register = some r ∧ r < s.opened) ∧
      ∀ k < s.pieces.size, k ∉ queue.map WorkItem.index → (s.piece k).isFixed = true := by
  rcases hadds.state with ⟨hfixed, -, hlists, hregister, hall⟩ | ⟨-, -, ⟨v, rfl⟩, -⟩
  · exact ⟨hfixed, by simp [hlists], hregister, hall⟩
  · exact absurd (List.mem_map.2 ⟨_, mem_insertItem.2 (.inl rfl), rfl⟩) hk

end

theorem Inv.not_mem_queue_of_fixed (h : Inv given now queue s)
    (hfixed : (s.piece k).isFixed = true) :
    k ∉ queue.map WorkItem.index := by
  intro hmem
  obtain ⟨w, hw, rfl⟩ := List.mem_map.1 hmem
  simp [h.queue_movable w hw] at hfixed

theorem Inv.add (h : Inv given now queue s) (hadds : Adds now queue queue' s s')
    {given' : List Interval} (hgiven : given ⊆ given')
    (hnew : (s'.piece s.pieces.size).isFixed = true → s'.piece s.pieces.size ∈ given')
    (hcases : ∀ g ∈ given', g ∈ given ∨ g = s'.piece s.pieces.size)
    (hcovers : ∀ v p,
      (∃ k < s'.pieces.size, (s'.piece k).value = v ∧ Covered (s'.piece k).ranges p) ↔
      ∃ g ∈ given', g.value = v ∧ Covered g.ranges p) : Inv given' now queue' s' := by
  have hsize := hadds.size
  have hfresh : s.pieces.size ∉ queue.map WorkItem.index := by
    intro hmem
    obtain ⟨w, hw, heq⟩ := List.mem_map.1 hmem
    exact Nat.ne_of_lt (h.queue_index w hw) heq
  constructor
  case ordered =>
    intro k hk
    rcases hadds.cases hk with rfl | hk
    · exact hadds.ordered
    · exact (hadds.part k hk).ordered
  case inhabited =>
    intro k hk
    rcases hadds.cases hk with rfl | hk
    · exact hadds.inhabited
    · exact (hadds.part k hk).inhabited
  case queue_index =>
    intro w hw
    rcases hadds.mem_queue hw with hw | ⟨-, heq, -⟩
    · have := h.queue_index w hw
      omega
    · omega
  case queue_start =>
    intro w hw
    rcases hadds.mem_queue hw with hw | ⟨-, heq, hstart, -⟩
    · exact (h.queue_start w hw).trans (hadds.part _ (h.queue_index w hw)).start.symm
    · rw [heq, hstart]
  case queue_movable =>
    intro w hw
    rcases hadds.mem_queue hw with hw | ⟨hmovable, heq, -⟩
    · exact (hadds.part _ (h.queue_index w hw)).isFixed.trans (h.queue_movable w hw)
    · rw [heq, hmovable]
  case queue_nodup =>
    rcases hadds.state with ⟨-, rfl, -⟩ | ⟨-, -, ⟨v, rfl⟩, -⟩
    · exact h.queue_nodup
    · refine ((insertItem_perm _ queue).map WorkItem.index).nodup_iff.2 ?_
      exact List.nodup_cons.2 ⟨hfresh, h.queue_nodup⟩
  case queue_sorted =>
    rcases hadds.state with ⟨-, rfl, -⟩ | ⟨-, -, ⟨v, rfl⟩, -⟩
    · exact h.queue_sorted
    · exact insertItem_sorted h.queue_sorted
  case queue_later =>
    intro w hw
    rcases hadds.mem_queue hw with hw | ⟨-, -, -, hlater⟩
    · exact h.queue_later w hw
    · exact hlater
  case placed =>
    intro k hk hq
    rw [hadds.opened]
    rcases hadds.cases hk with rfl | hk
    · exact (hadds.bound hq).2.2.1
    · rw [hadds.kept k hk (hadds.not_mem_queue hq)]
      exact h.placed k hk (hadds.not_mem_queue hq)
  case tracked =>
    intro k hk hq hstop
    rcases hadds.cases hk with rfl | hk
    · exact (hadds.bound hq).2.1
    · rw [hadds.kept k hk (hadds.not_mem_queue hq)] at hstop
      have hin := h.tracked k hk (hadds.not_mem_queue hq) hstop
      rcases hadds.state with ⟨-, -, hlists, -⟩ | ⟨-, -, -, hlists⟩
      · grind
      · rwa [hlists]
  case listed =>
    intro k hk
    have hold : k ∈ s.active ++ s.inactive → k < s'.pieces.size ∧
        k ∉ queue'.map WorkItem.index := by
      intro hk
      obtain ⟨hlt, hq⟩ := h.listed k hk
      refine ⟨by omega, fun hmem => ?_⟩
      obtain ⟨w, hw, rfl⟩ := List.mem_map.1 hmem
      rcases hadds.mem_queue hw with hw | ⟨-, heq, -⟩
      · exact hq (List.mem_map_of_mem hw)
      · omega
    rcases hadds.state with ⟨-, rfl, hlists, -⟩ | ⟨-, -, -, hlists⟩
    · grind
    · exact hold (hlists ▸ hk)
  case apart =>
    intro a ha b hb hab hqa hqb hr hnot
    have hfixed : s.pieces.size ∉ queue'.map WorkItem.index → ∀ k < s'.pieces.size,
        k ∉ queue'.map WorkItem.index →
        (s'.piece k).isFixed = true := by
      intro hq k hk hqk
      rcases hadds.cases hk with rfl | hk
      · exact (hadds.bound hq).1
      · exact (hadds.part k hk).isFixed.trans
          ((hadds.bound hq).2.2.2 k hk (hadds.not_mem_queue hqk))
    rcases hadds.cases ha with rfl | ha'
    · exact absurd ⟨hfixed hqa _ ha hqa, hfixed hqa b hb hqb⟩ hnot
    · rcases hadds.cases hb with rfl | hb'
      · exact absurd ⟨hfixed hqb a ha hqa, hfixed hqb _ hb hqb⟩ hnot
      · have hqa' := hadds.not_mem_queue hqa
        have hqb' := hadds.not_mem_queue hqb
        rw [hadds.kept a ha' hqa', hadds.kept b hb' hqb'] at hr hnot ⊢
        exact h.apart a ha' b hb' hab hqa' hqb' hr hnot
  case same_value =>
    intro a ha b hb hab hv
    rcases hadds.cases ha with rfl | ha
    · exact (hadds.apart b ((hadds.cases hb).resolve_left (Ne.symm hab)) hv.symm).symm
    · rcases hadds.cases hb with rfl | hb
      · exact hadds.apart a ha hv
      · rw [(hadds.part a ha).value, (hadds.part b hb).value] at hv
        intro p hpa hpb
        exact h.same_value a ha b hb hab hv p ((hadds.part a ha).covered p hpa)
          ((hadds.part b hb).covered p hpb)
  case covers => exact hcovers
  case fixed_given =>
    intro k hk hfixed
    rcases hadds.cases hk with rfl | hk
    · exact hnew hfixed
    · have hold : (s.piece k).isFixed = true := (hadds.part k hk).isFixed.symm.trans hfixed
      rw [hadds.kept k hk (h.not_mem_queue_of_fixed hold)]
      exact hgiven (h.fixed_given k hk hold)
  case given_fixed =>
    intro g hg hfixed hne
    rcases hcases g hg with hg | rfl
    · obtain ⟨k, hk, rfl⟩ := h.given_fixed g hg hfixed hne
      exact ⟨k, by omega, hadds.kept k hk (h.not_mem_queue_of_fixed hfixed)⟩
    · exact ⟨s.pieces.size, by omega, rfl⟩

/-! ## Splitting a piece -/

def before (i : Interval) (position : Nat) : Interval :=
  { i with ranges := i.ranges.filterMap (Interval.rangeBefore? position) }

def rest (i : Interval) (position : Nat) : Interval :=
  { value := i.value, ranges := i.ranges.filterMap (Interval.rangeFrom? position) }

theorem covered_before_iff {position p : Nat} :
    Covered (before i position).ranges p ↔ Covered i.ranges p ∧ p < position :=
  Interval.covered_before

theorem covered_rest_iff {position p : Nat} :
    Covered (rest i position).ranges p ↔ Covered i.ranges p ∧ position ≤ p :=
  Interval.covered_from

theorem before_disjoint_rest (i : Interval) (position : Nat) :
    (before i position).Disjoint (rest i position) := by
  intro p hb hr
  have h1 := (covered_before_iff.1 hb).2
  have h2 := (covered_rest_iff.1 hr).2
  omega

theorem rest_ranges_ne_nil (h : Ordered i.ranges) (hne : i.ranges ≠ []) {position : Nat}
    (hstop : position < i.stop) :
    (rest i position).ranges ≠ [] :=
  Interval.ne_nil_of_covered
    (covered_rest_iff.2 ⟨Interval.covered_last h hne, by omega⟩)

theorem start_before (h : Ordered i.ranges) (hne : i.ranges ≠ []) {position : Nat}
    (hpos : i.start < position) :
    (before i position).start = i.start := by
  have hb : Ordered (before i position).ranges := Interval.ordered_before h position
  have hstart := covered_before_iff.2 ⟨Interval.covered_start h hne, hpos⟩
  have hle := Interval.start_le hb hstart
  have hge :=
    (covered_before_iff.1 (Interval.covered_start hb (Interval.ne_nil_of_covered hstart))).1
  exact Nat.le_antisymm hle (Interval.start_le h hge)

theorem split_eq (hne : (rest (s.piece index) position).ranges ≠ []) :
    s.split index position =
      { s with
        pieces := (s.pieces.setIfInBounds index (before (s.piece index) position)).push
          (rest (s.piece index) position)
        waiting := insertItem ⟨(rest (s.piece index) position).start, (s.piece index).value,
          s.pieces.size⟩ s.waiting
        splits := s.splits + 1 } := by
  have hempty : ((s.piece index).ranges.filterMap (Interval.rangeFrom? position)).isEmpty =
      false := by
    simpa [rest] using hne
  simp [Scan.split, Interval.splitAt, hempty, before, rest]

theorem piece_split (hindex : index < s.pieces.size)
    (hne : (rest (s.piece index) position).ranges ≠ []) (i : Nat) :
    (s.split index position).piece i =
      if i = s.pieces.size then rest (s.piece index) position
      else if i = index then before (s.piece index) position else s.piece i := by
  rw [split_eq hne]
  simp only [piece, Table.getD_push, Table.getD_setIfInBounds, Array.size_setIfInBounds]
  by_cases hsize : i = s.pieces.size
  · simp [hsize]
  · grind

theorem waiting_split (hne : (rest (s.piece index) position).ranges ≠ []) :
    (s.split index position).waiting =
    insertItem ⟨(rest (s.piece index) position).start, (s.piece index).value, s.pieces.size⟩
      s.waiting := by
  rw [split_eq hne]

theorem size_split_pieces (hne : (rest (s.piece index) position).ranges ≠ []) :
    (s.split index position).pieces.size = s.pieces.size + 1 := by
  rw [split_eq hne]
  simp

theorem Inv.split (h : Inv given now (item :: queue) s) {position : Nat}
    (hpos : item.start < position) (hstop : position < (s.piece item.index).stop) :
    Inv given now
      (item :: insertItem ⟨(rest (s.piece item.index) position).start, (s.piece item.index).value,
        s.pieces.size⟩ queue)
      (s.split item.index position) := by
  have hindex := h.queue_index item (by simp)
  have hord := h.ordered _ hindex
  have hinh := h.inhabited _ hindex
  have hstart := h.queue_start item (by simp)
  have hrest := rest_ranges_ne_nil hord hinh hstop
  have hbefore : Covered (before (s.piece item.index) position).ranges item.start :=
    covered_before_iff.2 ⟨hstart ▸ Interval.covered_start hord hinh, hpos⟩
  have hordRest : Ordered (rest (s.piece item.index) position).ranges :=
    Interval.ordered_from hord position
  have hlater : item.start < (rest (s.piece item.index) position).start := by
    have := (covered_rest_iff.1 (Interval.covered_start hordRest hrest)).2
    omega
  have hsize := size_split_pieces hrest
  have hnew : (s.split item.index position).piece s.pieces.size =
      rest (s.piece item.index) position := by
    rw [piece_split hindex hrest, if_pos rfl]
  have hself : (s.split item.index position).piece item.index =
      before (s.piece item.index) position := by
    rw [piece_split hindex hrest, if_neg (by omega), if_pos rfl]
  have hother : ∀ k < s.pieces.size, k ≠ item.index → (s.split item.index position).piece k =
      s.piece k := by
    intro k hk hne
    rw [piece_split hindex hrest, if_neg (by omega), if_neg hne]
  have hqueue : item :: insertItem ⟨(rest (s.piece item.index) position).start,
      (s.piece item.index).value,
      s.pieces.size⟩ queue = insertItem ⟨(rest (s.piece item.index) position).start,
        (s.piece item.index).value,
        s.pieces.size⟩ (item :: queue) := by
    rw [insertItem, if_neg fun hprecedes => ?_]
    have := start_le_of_precedes hprecedes
    simp only at this
    omega
  rw [hqueue]
  refine h.add ?_ (List.Subset.refl _) (fun hfixed => by simp [hnew, rest] at hfixed)
    (fun g hg => .inl hg) ?_
  · constructor
    case size => exact hsize
    case opened => rw [split_eq hrest]
    case part =>
      intro k hk
      by_cases hne : k = item.index
      · subst hne
        rw [hself]
        exact ⟨rfl, rfl, start_before hord hinh (by omega), Interval.ordered_before hord position,
          Interval.ne_nil_of_covered hbefore, fun p hp => (covered_before_iff.1 hp).1⟩
      · rw [hother k hk hne]
        exact ⟨rfl, rfl, rfl, h.ordered k hk, h.inhabited k hk, fun _ hp => hp⟩
    case kept => exact fun k hk hq => hother k hk fun hne => hq (by simp [hne])
    case ordered => rwa [hnew]
    case inhabited => rwa [hnew]
    case apart =>
      -- the two parts are disjoint; against any other piece a part is as disjoint as the whole was
      intro k hk hv
      rw [hnew] at hv ⊢
      by_cases hne : k = item.index
      · subst hne
        rw [hself]
        exact before_disjoint_rest _ _
      · rw [hother k hk hne] at hv ⊢
        intro p hpk hp
        exact h.same_value k hk _ hindex hne hv p hpk (covered_rest_iff.1 hp).1
    case state =>
      refine .inr ⟨by rw [hnew]; rfl, ?_, ⟨(s.piece item.index).value, by rw [hnew]⟩, by
        rw [split_eq hrest]⟩
      rw [hnew]
      exact Nat.le_trans (h.queue_later item (by simp)) (Nat.le_of_lt hlater)
  · intro v p
    rw [← h.covers v p, hsize]
    constructor
    · rintro ⟨k, hk, hv, hp⟩
      by_cases hlast : k = s.pieces.size
      · rw [hlast, hnew] at hv hp
        exact ⟨item.index, hindex, hv, (covered_rest_iff.1 hp).1⟩
      · by_cases hne : k = item.index
        · rw [hne, hself] at hv hp
          exact ⟨item.index, hindex, hv, (covered_before_iff.1 hp).1⟩
        · grind
    · rintro ⟨k, hk, hv, hp⟩
      by_cases hne : k = item.index
      · rw [hne] at hv hp
        by_cases hlt : p < position
        · refine ⟨item.index, by omega, ?_⟩
          rw [hself]
          exact ⟨hv, covered_before_iff.2 ⟨hp, hlt⟩⟩
        · refine ⟨s.pieces.size, by omega, ?_⟩
          rw [hnew]
          exact ⟨hv, covered_rest_iff.2 ⟨hp, by omega⟩⟩
      · grind

/-! ## How long a register stays free -/

theorem getElem?_takeAll (register : Nat → Reg) (indices : List Nat) (free : Array Nat) (r : Reg) :
    (indices.foldl (fun free index => free.setIfInBounds (register index) 0) free)[r]? =
      if ∃ index ∈ indices, register index = r then free[r]?.map fun _ => 0 else free[r]? := by
  induction indices generalizing free with
  | nil => simp
  | cons index rest ih =>
    rw [List.foldl_cons, ih, Array.getElem?_setIfInBounds]
    by_cases hr : register index = r
    · have hex : ∃ i ∈ index :: rest, register i = r := ⟨index, by simp, hr⟩
      rw [if_pos hex]
      by_cases hlt : r < free.size
      · simp [hr, hlt]
      · simp [hr, hlt]
    · simp [hr]

def note (register : Nat → Reg) (needed : Nat → Option Nat) (free : Array Nat) (index : Nat) :
    Array Nat :=
  match needed index with
  | some position => free.modify (register index) (min · position)
  | none => free

theorem getElem?_noteAll {register : Nat → Reg} {needed : Nat → Option Nat} {indices : List Nat}
    (h : (indices.foldl (note register needed) free)[r]? = some u) :
    (∃ u₀, free[r]? = some u₀ ∧ u ≤ u₀) ∧
      ∀ index ∈ indices, register index = r → ∀ p, needed index = some p → u ≤ p := by
  induction indices generalizing free with
  | nil => exact ⟨⟨u, h, Nat.le_refl _⟩, by simp⟩
  | cons index rest ih =>
    obtain ⟨⟨u₀, hu₀, hle⟩, hrest⟩ := ih h
    have hnote : ∃ u₁, free[r]? = some u₁ ∧ u₀ ≤ u₁ ∧
        (register index = r → ∀ p, needed index = some p → u₀ ≤ p) := by
      unfold note at hu₀
      split at hu₀
      · grind
      · grind
    obtain ⟨u₁, hu₁, hle₁, hindex⟩ := hnote
    refine ⟨⟨u₁, hu₁, by omega⟩, ?_⟩
    intro i hi hreg p hp
    rcases List.mem_cons.1 hi with rfl | hi
    · grind
    · exact hrest i hi hreg p hp

theorem freeUntil_eq (s : Scan) (current : Interval) :
    s.freeUntil current =
      s.inactive.foldl (note s.registerOf fun index => (s.piece index).firstIntersection? current)
        (s.active.foldl (fun free index => free.setIfInBounds (s.registerOf index) 0)
          (Array.replicate s.opened current.stop)) :=
  rfl

/-- A register is free only for positions before any at which an unfinished piece needs it. -/
theorem freeUntil_sound {current : Interval} (h : (s.freeUntil current)[r]? = some u) :
    r < s.opened ∧ (∀ a ∈ s.active, s.registerOf a = r → u = 0) ∧
      ∀ i ∈ s.inactive, s.registerOf i = r →
        ∀ p, (s.piece i).firstIntersection? current = some p → u ≤ p := by
  rw [freeUntil_eq] at h
  obtain ⟨⟨u₀, hu₀, hle⟩, hinactive⟩ := getElem?_noteAll h
  rw [getElem?_takeAll, Array.getElem?_replicate] at hu₀
  by_cases hr : r < s.opened
  · rw [if_pos hr] at hu₀
    refine ⟨hr, fun a ha hreg => ?_, hinactive⟩
    rw [if_pos ⟨a, ha, hreg⟩] at hu₀
    simp only [Option.map_some, Option.some.injEq] at hu₀
    omega
  · simp [hr] at hu₀

/-! ## One step -/

theorem mem_of_longestFree {free : List Nat} {best : Option (Reg × Nat)} {start : Nat}
    (h : (free.zipIdx start).foldl (fun best (last, r) =>
      match best with
      | some (b, most) => if most < last then some (r, last) else some (b, most)
      | none => some (r, last)) best = some (r, u)) : best = some (r, u) ∨
          (u, r) ∈ free.zipIdx start := by
  induction free generalizing best start with
  | nil => exact .inl h
  | cons last rest ih =>
    rw [List.zipIdx_cons, List.foldl_cons] at h
    rcases ih h with hbest | hmem
    · cases best with
      | none => grind
      | some b => grind
    · exact .inr (by simp [List.zipIdx_cons, hmem])

theorem getElem?_longestFree (h : longestFree? free = some (r, u)) : free[r]? = some u := by
  rcases mem_of_longestFree h with hnone | hmem
  · simp at hnone
  · simpa [List.mem_zipIdx_iff_getElem?] using hmem

theorem fitting?_eq_some {v : Operand} {stop : Nat} (h : s.fitting? setting free v stop = some r) :
    ∃ u, free[r]? = some u ∧ stop ≤ u := by
  have hfits : (fun r => free[r]?.any (stop ≤ ·)) r = true := by
    simp only [fitting?, Option.or_eq_some_iff] at h
    rcases h with h | ⟨-, h⟩
    · exact List.find?_some (p := fun r => free[r]?.any (stop ≤ ·)) h
    · exact List.find?_some (p := fun r => free[r]?.any (stop ≤ ·)) h
  cases hu : free[r]? with
  | none => simp [hu] at hfits
  | some u => exact ⟨u, rfl, by simpa [hu] using hfits⟩

theorem fitting?_eq_none {v : Operand} {stop : Nat} (h : s.fitting? setting free v stop = none)
    (hr : r < s.opened) (hu : free[r]? = some u) : u < stop := by
  simp only [fitting?, Option.or_eq_none_iff, List.find?_eq_none] at h
  have := h.2 r (by simpa using hr)
  simp only [hu, Option.any_some, decide_eq_true_eq] at this
  omega

/-- What placing a piece can do. -/
theorem place_cases {s' : Scan} (h : s.place setting item = .ok s') :
    (∃ r u, (s.freeUntil (s.piece item.index))[r]? = some u ∧ (s.piece item.index).stop ≤ u ∧
      s' = s.assign item.index r) ∨
    (s.opened < setting.maxRegisters ∧ s' = { s with opened := s.opened + 1 }.assign
      item.index s.opened) ∨
    ∃ r u position, (s.freeUntil (s.piece item.index))[r]? = some u ∧
      u < (s.piece item.index).stop ∧ setting.splitPosition? u = some position ∧
      item.start < position ∧ s' = (s.split item.index position).assign item.index r := by
  unfold place at h
  simp only at h
  split at h
  · rename_i register hfit
    left
    obtain ⟨u, hu, hle⟩ := fitting?_eq_some hfit
    exact ⟨register, u, hu, hle, by simpa using h.symm⟩
  · rename_i hfit
    split at h
    · grind
    · right; right
      split at h
      · simp at h
      · rename_i register last hlongest
        split at h
        · simp at h
        · rename_i position hposition
          obtain ⟨hsplit, hlt⟩ := Option.filter_eq_some_iff.1 hposition
          have hu := getElem?_longestFree hlongest
          have hlast := fitting?_eq_none hfit (freeUntil_sound hu).1 hu
          exact ⟨register, last, position, hu, hlast, hsplit, by simpa using hlt,
            by simpa using h.symm⟩

theorem Inv.suits_of_freeUntil (h : Inv given now (item :: queue) s) {u bound : Nat}
    (hu : (s.freeUntil (s.piece item.index))[r]? = some u) (hbound : bound ≤ u) (hpos : 0 < bound) :
    r < s.opened ∧ ∀ j ∈ s.active ++ s.inactive, s.registerOf j = r →
      ∀ p, Covered (s.piece j).ranges p → Covered (s.piece item.index).ranges p → bound ≤ p := by
  obtain ⟨hr, hactive, hinactive⟩ := freeUntil_sound hu
  refine ⟨hr, ?_⟩
  intro j hj hreg p hpj hpi
  have hlisted := h.listed j hj
  rcases List.mem_append.1 hj with hj | hj
  · grind
  · have hordj := h.ordered j hlisted.1
    have hordi := h.ordered _ (h.queue_index item (by simp))
    obtain ⟨q, hfirst, hle⟩ := Interval.exists_firstCommon? hordj hordi hpj hpi
    have hq := hinactive j hj hreg q hfirst
    omega

/-- A step gives the first queued piece a register, or its first part one and the rest a place in
the queue. -/
theorem Inv.place {s' : Scan}
    (hsplit : ∀ last position, setting.splitPosition? last = some position → position ≤ last)
    (h : Inv given now (item :: s.waiting) s) (hnow : now = item.start)
    (hplace : s.place setting item = .ok s') :
    Inv given now s'.waiting s' := by
  have hindex := h.queue_index item (by simp)
  have hord := h.ordered _ hindex
  have hinh := h.inhabited _ hindex
  have hstart := h.queue_start item (by simp)
  rcases place_cases hplace with ⟨r, u, hu, hle, rfl⟩ | ⟨hopened, rfl⟩ |
    ⟨r, u, position, hu, hlt, hposition, hpos, rfl⟩
  · have hstop := Interval.start_lt_stop hord hinh
    obtain ⟨hr, hdisjoint⟩ := h.suits_of_freeUntil hu hle (by omega)
    refine h.assign hnow ⟨hr, ?_⟩
    intro j hj hreg p hpj hpi
    have := hdisjoint j hj hreg p hpj hpi
    have := Interval.lt_stop hord hpi
    omega
  · refine h.open.assign hnow ⟨Nat.lt_succ_self _, ?_⟩
    intro j hj hreg
    -- the new register is nobody's yet
    obtain ⟨hlt, hq⟩ := h.listed j hj
    obtain ⟨r, hr, hropen⟩ := h.placed j hlt hq
    have hreg' : s.registerOf j = s.opened := hreg
    rw [registerOf_eq hr] at hreg'
    exact absurd hreg' (Nat.ne_of_lt hropen)
  · have hle := hsplit u position hposition
    have hrest : (rest (s.piece item.index) position).ranges ≠ [] :=
      rest_ranges_ne_nil hord hinh (by omega)
    obtain ⟨hr, hdisjoint⟩ := h.suits_of_freeUntil hu hle (by omega)
    have hinv := h.split hpos (by omega)
    rw [← waiting_split hrest] at hinv
    refine hinv.assign hnow ⟨?_, ?_⟩
    · rw [split_eq hrest]
      exact hr
    · intro j hj hreg p hpj hpi
      have hj' : j ∈ s.active ++ s.inactive := by rwa [split_eq hrest] at hj
      obtain ⟨hlt', hq⟩ := h.listed j hj'
      have hne : j ≠ item.index := fun hc => hq (by simp [hc])
      have hpiece : (s.split item.index position).piece j = s.piece j := by
        rw [piece_split hindex hrest, if_neg (by omega), if_neg hne]
      simp only [registerOf, hpiece] at hreg hpj
      rw [piece_split hindex hrest, if_neg (by omega), if_pos rfl] at hpi
      obtain ⟨hpi, hbefore⟩ := covered_before_iff.1 hpi
      have := hdisjoint j hj' hreg p hpj hpi
      omega

end Scan

end BytecodeOpt.Allocation
