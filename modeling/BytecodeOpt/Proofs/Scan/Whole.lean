import BytecodeOpt.Proofs.Scan.Run

/-!
# Scans that cut nothing

Where of two intervals that meet one is there when the other starts, a piece in a gap never needs
its register during the current interval.  A register is then free for all of it or not at all, so a
scan finds a register for a whole interval or none.
-/

namespace BytecodeOpt.Allocation

def Interval.Nests (i j : Interval) : Prop :=
  ∀ p, Covered i.ranges p → Covered j.ranges p → Covered i.ranges j.start ∨ Covered j.ranges i.start

theorem Interval.start_congr {i j : Interval} (h : i.ranges = j.ranges) : i.start = j.start := by
  rw [Interval.start, Interval.start, h]

namespace Scan

variable {given : List Interval} {now : Nat} {queue : List WorkItem} {s s' : Scan}
  {setting : ScanSetting}

structure Settled (given : List Interval) : Prop where
  nests : ∀ i ∈ given, ∀ j ∈ given, i.Nests j
  fixed_first : ∀ i ∈ given, ∀ j ∈ given, i.isFixed = true → j.isFixed = false → j.ranges ≠ [] →
    i.start ≤ j.start

def outline (i : Interval) : Operand × List Range := (i.value, i.ranges)

structure Whole (given : List Interval) (queue : List WorkItem) (s : Scan) : Prop where
  pieces : s.pieces.toList.map outline = (given.filter fun i => !i.isEmpty).map outline
  begun : ∀ k < s.pieces.size, k ∉ queue.map WorkItem.index → ∀ w ∈ queue,
    (s.piece k).start ≤ w.start
  splits : s.splits = 0

theorem Whole.exists_given (h : Whole given queue s) {k : Nat} (hk : k < s.pieces.size) :
    ∃ g ∈ given, (s.piece k).ranges = g.ranges := by
  have hmem : outline (s.piece k) ∈ s.pieces.toList.map outline :=
    List.mem_map_of_mem (mem_pieces.2 ⟨k, hk, rfl⟩)
  rw [h.pieces] at hmem
  obtain ⟨g, hg, heq⟩ := List.mem_map.1 hmem
  exact ⟨g, (List.mem_filter.1 hg).1, (Prod.mk.inj heq).2.symm⟩

/-! ## One step -/

theorem not_covered_of_mem_inactive {position k : Nat} (h : k ∈ (s.advance position).inactive) :
    ¬ Covered (s.piece k).ranges position := by
  intro hcovered
  have hnot := (List.mem_filter.1 h).2
  simp [Interval.covers_iff.2 hcovered] at hnot

theorem Whole.disjoint {item : WorkItem} (hsettled : Settled given)
    (h : Whole given (item :: queue) s)
    (hinv : Inv given now (item :: queue) s) {k : Nat} (hk : k < s.pieces.size)
    (hplaced : k ∉ (item :: queue).map WorkItem.index)
    (hgap : ¬ Covered (s.piece k).ranges item.start) :
    (s.piece k).Disjoint (s.piece item.index) := by
  intro p hkp hip
  have hindex := hinv.queue_index item List.mem_cons_self
  have hstart := hinv.queue_start item List.mem_cons_self
  obtain ⟨g, hg, hkg⟩ := h.exists_given hk
  obtain ⟨g', hg', hig⟩ := h.exists_given hindex
  have hnests := hsettled.nests g hg g' hg' p (hkg ▸ hkp) (hig ▸ hip)
  rw [← hkg, ← hig, ← Interval.start_congr hkg, ← Interval.start_congr hig, ← hstart] at hnests
  rcases hnests with hcovered | hcovered
  · exact hgap hcovered
  · -- then both start here
    have hle := Interval.start_le (hinv.ordered _ hindex) hcovered
    have hbegun := h.begun k hk hplaced item List.mem_cons_self
    refine hgap ?_
    rw [show item.start = (s.piece k).start by omega]
    exact Interval.covered_start (hinv.ordered k hk) (hinv.inhabited k hk)

/-- If no piece in a gap meets the current one, a register is free for all of it or not at all. -/
theorem freeUntil_of_disjoint {current : Interval}
    (h : ∀ k ∈ s.inactive, (s.piece k).firstIntersection? current = none) {r : Reg} {u : Nat}
    (hu : (s.freeUntil current)[r]? = some u) : u = 0 ∨ u = current.stop := by
  have hnote : ∀ free : Array Nat,
      s.inactive.foldl (note s.registerOf fun k => (s.piece k).firstIntersection? current) free =
        free := fun free =>
    List.foldlRecOn (motive := (· = free)) _ _ rfl fun _ hfree k hk => by rw [note, h k hk, hfree]
  rw [freeUntil_eq, hnote, getElem?_takeAll, Array.getElem?_replicate] at hu
  split at hu
  · grind
  · grind

section

variable (hsplit : ∀ last position, setting.splitPosition? last = some position → position ≤ last)
include hsplit

theorem Whole.place {item : WorkItem}
    (hsettled : Settled given) (h : Whole given (item :: s.waiting) s)
    (hinv : Inv given now (item :: s.waiting) s)
    (hgap : ∀ k ∈ s.inactive, ¬ Covered (s.piece k).ranges item.start)
    (hplace : s.place setting item = .ok s') : Whole given s'.waiting s' := by
  have hassign : ∀ opened r, Whole given ({ s with opened }.assign item.index r).waiting
      ({ s with opened }.assign item.index r) := by
    intro opened r
    refine ⟨?_, fun k hk hplaced w hw => ?_, h.splits⟩
    · rw [← h.pieces]
      refine List.ext_getElem (by simp [assign]) fun k hk _ => ?_
      simp only [assign, List.getElem_map, Array.getElem_toList, Array.getElem_modify]
      split <;> rfl
    · have hranges := ranges_piece_assign { s with opened } item.index r k
      rw [Interval.start_congr hranges]
      by_cases hitem : k = item.index
      · subst hitem
        have hle := (List.pairwise_cons.1 hinv.queue_sorted).1 w hw
        exact (hinv.queue_start item List.mem_cons_self) ▸ hle
      · refine h.begun k (by simpa using hk) (fun hmem => ?_) w (List.mem_cons_of_mem item hw)
        rcases List.mem_cons.1 hmem with heq | hmem
        · exact hitem heq
        · exact hplaced hmem
  rcases place_cases hplace with ⟨r, u, -, -, rfl⟩ | ⟨-, rfl⟩ |
    ⟨r, u, position, hu, hlt, hposition, hpos, -⟩
  · exact hassign s.opened r
  · exact hassign (s.opened + 1) s.opened
  · exfalso
    have hnone : ∀ k ∈ s.inactive, (s.piece k).firstIntersection? (s.piece item.index) = none := by
      intro k hk
      obtain ⟨hlt, hplaced⟩ := hinv.listed k (List.mem_append_right _ hk)
      exact Interval.firstIntersection?_eq_none (h.disjoint hsettled hinv hlt hplaced (hgap k hk))
    rcases freeUntil_of_disjoint hnone hu with rfl | rfl
    · grind
    · exact Nat.lt_irrefl _ hlt

/-! ## The whole scan -/

theorem Whole.placeAll
    (hsettled : Settled given) {fuel : Nat} (h : Whole given s.waiting s)
    (hinv : Inv given now s.waiting s)
    (hrun : placeAll setting fuel s = .ok s') : Whole given s'.waiting s' := by
  refine (of_placeAll (P := fun s => Whole given s.waiting s ∧ ∃ now, Inv given now s.waiting s) ?_
    ⟨h, now, hinv⟩ hrun).1
  rintro s s' item rest hwaiting ⟨h, now, hinv⟩ hplace
  rw [hwaiting] at h hinv
  have hadvanced := (hinv.of_waiting rest).advance
  have hwhole : Whole given (item :: ({ s with waiting := rest }.advance item.start).waiting)
      ({ s with waiting := rest }.advance item.start) := ⟨h.pieces, h.begun, h.splits⟩
  have hgap : ∀ k ∈ ({ s with waiting := rest }.advance item.start).inactive,
      ¬ Covered (s.piece k).ranges item.start := fun k hk => not_covered_of_mem_inactive hk
  exact ⟨hwhole.place hsplit hsettled hadvanced hgap hplace, _, hadvanced.place hsplit rfl hplace⟩

end

theorem pieces_of_add {i : Interval} (h : s.add setting i = .ok s') :
    s'.pieces.toList = s.pieces.toList ++ [i].filter (fun i => !i.isEmpty) ∧
      s'.splits = s.splits := by
  unfold Scan.add at h
  simp only at h
  split at h
  · grind
  · grind

theorem pieces_of_foldlM {intervals : List Interval}
    (h : intervals.foldlM (Scan.add setting) s = .ok s') :
    s'.pieces.toList = s.pieces.toList ++ intervals.filter (fun i => !i.isEmpty) ∧
      s'.splits = s.splits := by
  induction intervals generalizing s with
  | nil =>
    cases h
    simp
  | cons i intervals ih =>
    rw [List.foldlM_cons] at h
    obtain ⟨next, hadd, h⟩ := Fallible.bind_eq_ok.1 h
    obtain ⟨hpieces, hsplits⟩ := pieces_of_add hadd
    obtain ⟨hpieces', hsplits'⟩ := ih h
    rw [hpieces', hpieces, hsplits', hsplits, List.append_assoc, ← List.filter_append]
    exact ⟨rfl, rfl⟩

/-- A scan of settled intervals leaves every one of them whole. -/
theorem whole_of_run (hsplit : ∀ last position, setting.splitPosition? last = some position →
    position ≤ last)
    {intervals : List Interval} (hproper : Proper intervals) (hsettled : Settled intervals)
    (h : run setting intervals = .ok s) : Whole intervals s.waiting s := by
  obtain ⟨start, hstart, -, hplace⟩ := run_cases h
  obtain ⟨hpieces, hsplits⟩ := pieces_of_foldlM hstart
  have hstarted := hproper.started hstart
  refine Whole.placeAll hsplit hsettled ⟨?_, fun k hk hplaced w hw => ?_, hsplits⟩
    hstarted.inv hplace
  · rw [hpieces]
    rfl
  · have hmem : ∀ j < start.pieces.size, start.piece j ∈ intervals := by
      intro j hj
      have hj := mem_pieces.2 ⟨j, hj, rfl⟩
      rw [hpieces] at hj
      exact List.mem_of_mem_filter hj
    have hindex := hstarted.inv.queue_index w hw
    rw [hstarted.inv.queue_start w hw]
    exact hsettled.fixed_first _ (hmem k hk) _ (hmem _ hindex) (hstarted.only_fixed k hk hplaced)
      (hstarted.inv.queue_movable w hw) (hstarted.inv.inhabited _ hindex)

end Scan

end BytecodeOpt.Allocation
