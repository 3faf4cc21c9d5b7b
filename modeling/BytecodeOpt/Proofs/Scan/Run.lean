import BytecodeOpt.Proofs.Fallible
import BytecodeOpt.Proofs.Scan.Step
import Mathlib.Data.List.Nodup
import Mathlib.Data.List.Pairwise
import Mathlib.Data.List.Perm.Basic

/-!
# A whole scan

Taking the intervals in establishes the invariant, and the scan keeps it until nothing is queued.
What is left then says all there is to say about the pieces: they are the given intervals, cut, each
with a register of its own as long as it lasts.
-/

namespace BytecodeOpt.Allocation.Scan

variable {given : List Interval} {now : Nat} {queue : List WorkItem} {s : Scan}
  {setting : ScanSetting} {intervals : List Interval} {s' : Scan} {i : Interval} {fuel : Nat}

/-! ## The whole scan -/

def pending (s : Scan) (queue : List WorkItem) :
    Nat := totalOf (fun w => (s.piece w.index).size) queue

theorem pending_perm (s : Scan) {first second : List WorkItem} (h : first.Perm second) :
    s.pending first = s.pending second := by
  rw [pending, pending, totalOf_eq_foldr, totalOf_eq_foldr, (h.map _).foldr_eq]

theorem pending_congr {s s' : Scan} {queue : List WorkItem}
    (h : ∀ w ∈ queue, (s'.piece w.index).ranges = (s.piece w.index).ranges) :
    s'.pending queue = s.pending queue := by
  rw [pending, pending, totalOf_eq_foldr, totalOf_eq_foldr]
  refine congrArg (List.foldr (· + ·) 0) (List.map_congr_left fun w hw => ?_)
  rw [Interval.size, Interval.size, h w hw]

section

variable (hsplit : ∀ last position, setting.splitPosition? last = some position → position ≤ last)
include hsplit

/-- Every step leaves fewer positions to place. -/
theorem pending_place_lt {item : WorkItem} (h : Inv given now (item :: s.waiting) s)
    (hplace : s.place setting item = .ok s') :
    s'.pending s'.waiting < s.pending (item :: s.waiting) := by
  have hindex := h.queue_index item (by simp)
  have hord := h.ordered _ hindex
  have hinh := h.inhabited _ hindex
  have hstart := h.queue_start item (by simp)
  have hpos := Interval.size_pos hord hinh
  have hassign : ∀ opened r, ({ s with opened }.assign item.index r).pending s.waiting < s.pending
      (item :: s.waiting) := by
    intro opened r
    have hsame : ({ s with opened }.assign item.index r).pending s.waiting = s.pending s.waiting :=
      pending_congr fun w _ => ranges_piece_assign _ _ _ _
    rw [hsame]
    simp only [pending, totalOf_cons]
    omega
  rcases place_cases hplace with ⟨r, u, hu, hle, rfl⟩ | ⟨hopened, rfl⟩ |
    ⟨r, u, position, hu, hlt, hposition, hstart', rfl⟩
  · exact hassign s.opened r
  · exact hassign (s.opened + 1) s.opened
  · have hle := hsplit u position hposition
    have hrest : (rest (s.piece item.index) position).ranges ≠ [] :=
      rest_ranges_ne_nil hord hinh (by omega)
    have hwaiting : ((s.split item.index position).assign item.index r).waiting = _ :=
      waiting_split hrest
    have hbefore : (before (s.piece item.index) position).ranges ≠ [] :=
      Interval.ne_nil_of_covered
        (covered_before_iff.2 ⟨hstart ▸ Interval.covered_start hord hinh, hstart'⟩)
    have hsize := Interval.size_split (s.piece item.index).ranges position
    have hbeforePos : 0 < (before (s.piece item.index) position).size :=
      Interval.size_pos (Interval.ordered_before hord position) hbefore
    have hnodup := List.nodup_cons.1 h.queue_nodup
    rw [hwaiting, pending_perm _ (insertItem_perm _ _)]
    have hothers : ((s.split item.index position).assign item.index r).pending s.waiting =
        s.pending s.waiting := by
      refine pending_congr fun w hw => ?_
      have hw' := h.queue_index w (by simp [hw])
      have hne : w.index ≠ item.index := fun hc => hnodup.1 (List.mem_map.2 ⟨w, hw, hc⟩)
      rw [ranges_piece_assign, piece_split hindex hrest, if_neg (by omega), if_neg hne]
    have hnew : (((s.split item.index position).assign item.index r).piece s.pieces.size).ranges =
        (rest (s.piece item.index) position).ranges := by
      rw [ranges_piece_assign, piece_split hindex hrest, if_pos rfl]
    simp only [pending, totalOf_cons] at hothers ⊢
    rw [hothers]
    simp only [Interval.size, hnew] at hbeforePos ⊢
    simp only [before, rest] at hbeforePos ⊢
    omega

theorem Inv.step {item : WorkItem} {rest : List WorkItem} (h : Inv given now s.waiting s)
    (hwaiting : s.waiting = item :: rest)
    (hplace : ({ s with waiting := rest }.advance item.start).place setting item = .ok s') :
    Inv given item.start s'.waiting s' ∧ s'.pending s'.waiting < s.pending s.waiting := by
  rw [hwaiting] at h ⊢
  have hadv := (h.of_waiting rest).advance
  exact ⟨hadv.place hsplit rfl hplace, pending_place_lt hsplit hadv hplace⟩

/-- With enough steps left the scan ends because nothing is queued any more. -/
theorem placeAll_inv (h : Inv given now s.waiting s) (hfuel : s.pending s.waiting < fuel)
    (hrun : placeAll setting fuel s = .ok s') : s'.waiting = [] ∧ ∃ last, Inv given last [] s' := by
  induction fuel generalizing s now with
  | zero => omega
  | succ fuel ih =>
    unfold placeAll at hrun
    split at hrun
    · grind
    · rename_i item rest hwaiting
      obtain ⟨next, hplace, hrun⟩ := Fallible.bind_eq_ok.1 hrun
      obtain ⟨hnext, hlt⟩ := h.step hsplit hwaiting hplace
      exact ih hnext (by omega) hrun

/-- More steps than there are positions to place change nothing: the loop has come to its end. -/
theorem placeAll_add_fuel (h : Inv given now s.waiting s) (hfuel : s.pending s.waiting < fuel)
    (extra : Nat) :
    placeAll setting (fuel + extra) s = placeAll setting fuel s := by
  induction fuel generalizing s now with
  | zero => omega
  | succ fuel ih =>
    rw [Nat.add_right_comm]
    unfold placeAll
    split
    · rfl
    · rename_i item rest hwaiting
      cases hplace : ({ s with waiting := rest }.advance item.start).place setting item with
      | error fault => rfl
      | ok next =>
        obtain ⟨hnext, hlt⟩ := h.step hsplit hwaiting hplace
        exact ih hnext (by omega)

end

/-! ## The start of a scan -/

theorem Inv.empty (opened : Nat) : Inv [] 0 [] { opened } := by
  constructor <;> simp

/-- A new interval is a piece of its own.  At the start only fixed pieces have a register. -/
theorem Inv.push (h : Inv given 0 queue s)
    (hfixed : ∀ k < s.pieces.size, k ∉ queue.map WorkItem.index → (s.piece k).isFixed = true)
    (hord : Ordered i.ranges)
    (hne : i.ranges ≠ []) (hvalue : ∀ g ∈ given, g.value ≠ i.value) (s' : Scan)
    {queue' : List WorkItem}
    (hpieces : s'.pieces = s.pieces.push i) (hopened : s'.opened = s.opened)
    (hstate : (i.isFixed = true ∧ queue' = queue ∧
        s'.active ++ s'.inactive = s.active ++ s.inactive ++ [s.pieces.size] ∧
        ∃ r : Nat, i.register = some r ∧ r < s.opened) ∨
      (i.isFixed = false ∧ queue' = insertItem ⟨i.start, i.value, s.pieces.size⟩ queue ∧
        s'.active ++ s'.inactive = s.active ++ s.inactive)) :
    Inv (given ++ [i]) 0 queue' s' ∧
      ∀ k < s'.pieces.size, k ∉ queue'.map WorkItem.index → (s'.piece k).isFixed = true := by
  have hnew : s'.piece s.pieces.size = i := by
    simp [piece, hpieces]
  have hold : ∀ k < s.pieces.size, s'.piece k = s.piece k := by
    intro k hk
    simp only [piece, hpieces, Table.getD_push, if_neg (Nat.ne_of_lt hk)]
  -- the pieces there are have none of the new value
  have hother : ∀ k < s.pieces.size, (s.piece k).value ≠ i.value := by
    intro k hk heq
    have hcov := Interval.covered_start (h.ordered k hk) (h.inhabited k hk)
    obtain ⟨g, hg, hgv, -⟩ := (h.covers i.value _).1 ⟨k, hk, heq, hcov⟩
    exact hvalue g hg hgv
  have hadds : Adds 0 queue queue' s s' := by
    constructor
    case size => simp [hpieces]
    case opened => exact hopened
    case part =>
      intro k hk
      rw [hold k hk]
      exact ⟨rfl, rfl, rfl, h.ordered k hk, h.inhabited k hk, fun _ hp => hp⟩
    case kept => exact fun k hk _ => hold k hk
    case ordered => rwa [hnew]
    case inhabited => rwa [hnew]
    case apart =>
      intro k hk hv
      rw [hold k hk, hnew] at hv
      exact absurd hv (hother k hk)
    case state =>
      rw [hnew]
      rcases hstate with ⟨hf, hqueue, hlists, hregister⟩ | ⟨hf, hqueue, hlists⟩
      · exact .inl ⟨hf, hqueue, hlists, hregister, hfixed⟩
      · exact .inr ⟨hf, Nat.zero_le _, ⟨i.value, hqueue⟩, hlists⟩
  refine ⟨h.add hadds (List.subset_append_left _ _) (fun _ => by simp [hnew]) (by simp [hnew]) ?_,
    ?_⟩
  · intro v p
    constructor
    · rintro ⟨k, hk, hv, hp⟩
      rcases hadds.cases hk with rfl | hk
      · grind
      · rw [hold k hk] at hv hp
        obtain ⟨g, hg, hgv, hgp⟩ := (h.covers v p).1 ⟨k, hk, hv, hp⟩
        exact ⟨g, List.mem_append_left _ hg, hgv, hgp⟩
    · rintro ⟨g, hg, hv, hp⟩
      have hsize := hadds.size
      rcases List.mem_append.1 hg with hg | hg
      · obtain ⟨k, hk, hkv, hkp⟩ := (h.covers v p).2 ⟨g, hg, hv, hp⟩
        rw [← hold k hk] at hkv hkp
        exact ⟨k, by omega, hkv, hkp⟩
      · grind
  · intro k hk hq
    rcases hadds.cases hk with rfl | hk
    · exact (hadds.bound hq).1
    · rw [hold k hk]
      exact hfixed k hk (hadds.not_mem_queue hq)

structure Started (setting : ScanSetting) (given : List Interval) (s : Scan) : Prop where
  inv : Inv given 0 s.waiting s
  only_fixed : ∀ k < s.pieces.size, k ∉ s.waiting.map WorkItem.index → (s.piece k).isFixed = true
  opened : s.opened = setting.ins
  pending : s.pending s.waiting ≤ totalOf Interval.size given

theorem Started.empty (setting : ScanSetting) : Started setting [] { opened := setting.ins } :=
  ⟨Inv.empty _, by simp, rfl, Nat.le_refl _⟩

theorem Inv.skip (h : Inv given now queue s) (hi : i.ranges = []) :
    Inv (given ++ [i]) now queue s :=
  { h with
    covers := by
      intro v p
      rw [h.covers v p]
      constructor
      · grind
      · rintro ⟨g, hg, hgv, hgp⟩
        rcases List.mem_append.1 hg with hg | hg
        · exact ⟨g, hg, hgv, hgp⟩
        · obtain rfl := List.mem_singleton.1 hg
          exact absurd hi (Interval.ne_nil_of_covered hgp)
    fixed_given := fun k hk hf => List.mem_append_left _ (h.fixed_given k hk hf)
    given_fixed := by
      intro g hg hf hne
      rcases List.mem_append.1 hg with hg | hg
      · exact h.given_fixed g hg hf hne
      · obtain rfl := List.mem_singleton.1 hg
        exact absurd hi hne }

theorem Started.add (h : Started setting given s) (hord : Ordered i.ranges)
    (hvalue : ∀ g ∈ given, g.value ≠ i.value)
    (hregister : i.isFixed = true → i.register.isSome = true) (hadd : s.add setting i = .ok s') :
    Started setting (given ++ [i]) s' := by
  have hold : ∀ s' : Scan, s'.pieces = s.pieces.push i →
      s'.pending s.waiting = s.pending s.waiting := by
    intro s' hpieces
    refine pending_congr fun w hw => ?_
    have hlt := h.inv.queue_index w hw
    simp only [piece, hpieces, Table.getD_push, if_neg (Nat.ne_of_lt hlt)]
  unfold Scan.add at hadd
  simp only at hadd
  split at hadd
  · rename_i hempty
    cases hadd
    have hnil := Interval.isEmpty_iff.1 hempty
    refine ⟨h.inv.skip hnil, h.only_fixed, h.opened, ?_⟩
    rw [totalOf_append]
    exact Nat.le_add_right_of_le h.pending
  · rename_i hempty
    have hne : i.ranges ≠ [] := fun hc => hempty (Interval.isEmpty_iff.2 hc)
    split at hadd
    · rename_i hf
      split at hadd
      · simp at hadd
      · rename_i hbounds
        cases hadd
        obtain ⟨r, hr⟩ := Option.isSome_iff_exists.1 (hregister hf)
        have hlt : r < s.opened := by grind
        obtain ⟨hinv, honly⟩ := h.inv.push h.only_fixed hord hne hvalue
          { s with
            pieces := s.pieces.push i
            assigned := (i.value, i.register.getD 0) :: s.assigned
            inactive := s.inactive ++ [s.pieces.size] } rfl rfl
          (.inl ⟨hf, rfl, by simp, r, hr, hlt⟩)
        refine ⟨hinv, honly, h.opened, ?_⟩
        rw [totalOf_append, hold _ rfl]
        exact Nat.le_add_right_of_le h.pending
    · rename_i hf
      cases hadd
      obtain ⟨hinv, honly⟩ := h.inv.push h.only_fixed hord hne hvalue
        { s with
          pieces := s.pieces.push i
          waiting := insertItem ⟨i.start, i.value, s.pieces.size⟩ s.waiting } rfl rfl
        (.inr ⟨by simpa using hf, rfl, rfl⟩)
      refine ⟨hinv, honly, h.opened, ?_⟩
      rw [totalOf_append, pending_perm _ (insertItem_perm _ _)]
      have hpend := h.pending
      rw [← hold { s with
          pieces := s.pieces.push i
          waiting := insertItem ⟨i.start, i.value, s.pieces.size⟩ s.waiting } rfl] at hpend
      simp only [Scan.pending, totalOf_cons, totalOf_nil] at hpend ⊢
      simp only [piece, Table.getD_push, if_pos] at hpend ⊢
      omega

theorem Started.foldlM (h : Started setting given s) {more : List Interval}
    (hvalues : ((given ++ more).map Interval.value).Nodup) (hord : ∀ i ∈ more, Ordered i.ranges)
    (hregister : ∀ i ∈ more, i.isFixed = true → i.register.isSome = true)
    (hadd : more.foldlM (Scan.add setting) s = .ok s') : Started setting (given ++ more) s' := by
  induction more generalizing given s with
  | nil =>
    cases hadd
    simpa using h
  | cons i rest ih =>
    rw [List.foldlM_cons] at hadd
    obtain ⟨next, hi, hadd⟩ := Fallible.bind_eq_ok.1 hadd
    have hvalue : ∀ g ∈ given, g.value ≠ i.value := by grind
    have hnext := h.add (hord i (by simp)) hvalue (hregister i (by simp)) hi
    have := ih hnext (by simpa using hvalues) (fun j hj => hord j (by simp [hj]))
      (fun j hj => hregister j (by simp [hj])) hadd
    simpa using this

theorem opened_le_of_place {item : WorkItem} (h : s.opened ≤ setting.maxRegisters)
    (hplace : s.place setting item = .ok s') : s'.opened ≤ setting.maxRegisters := by
  rcases place_cases hplace with ⟨r, u, -, -, rfl⟩ | ⟨hopened, rfl⟩ |
    ⟨r, u, position, -, -, -, -, rfl⟩
  · exact h
  · exact hopened
  · have : (s.split item.index position).opened = s.opened := by
      unfold split
      split <;> rfl
    exact this ▸ h

/-- What every step keeps holds in the end. -/
theorem of_placeAll {P : Scan → Prop}
    (hstep : ∀ {s s' : Scan} {item rest}, s.waiting = item :: rest → P s →
      ({ s with waiting := rest }.advance item.start).place setting item = .ok s' → P s')
    (h : P s) (hrun : placeAll setting fuel s = .ok s') : P s' := by
  induction fuel generalizing s with
  | zero =>
    cases hrun
    exact h
  | succ fuel ih =>
    unfold placeAll at hrun
    split at hrun
    · cases hrun
      exact h
    · rename_i item rest hwaiting
      obtain ⟨next, hplace, hrun⟩ := Fallible.bind_eq_ok.1 hrun
      exact ih (hstep hwaiting h hplace) hrun

theorem opened_le_of_placeAll (h : s.opened ≤ setting.maxRegisters)
    (hrun : placeAll setting fuel s = .ok s') :
    s'.opened ≤ setting.maxRegisters := by
  refine of_placeAll (P := fun s => s.opened ≤ setting.maxRegisters) (fun _ h hplace => ?_) h hrun
  refine opened_le_of_place ?_ hplace
  exact h

/-! ## What a scan ends with -/

/-- The pieces of a scan of `given` are these intervals, cut into parts that do not get in each
other's way. -/
structure Sound (given : List Interval) (maxRegisters : Nat) (s : Scan) : Prop where
  ordered : ∀ i ∈ s.pieces.toList, Ordered i.ranges ∧ i.ranges ≠ []
  cut : s.pieces.toList.Pairwise fun i j => i.value = j.value → i.Disjoint j
  covers : ∀ v p, (∃ i ∈ s.pieces.toList, i.value = v ∧ Covered i.ranges p) ↔
    ∃ g ∈ given, g.value = v ∧ Covered g.ranges p
  register : ∀ i ∈ s.pieces.toList, ∃ r : Nat, i.register = some r ∧ r < s.opened
  opened : s.opened ≤ maxRegisters
  fixed : ∀ g ∈ given, g.isFixed = true → g.ranges ≠ [] →
    s.pieces.toList.filter (·.value = g.value) = [g]
  apart : given.Pairwise (fun g h => g.isFixed = true → h.isFixed = true →
      g.register = h.register → g.Disjoint h) →
    s.pieces.toList.Pairwise fun i j => i.register = j.register → i.Disjoint j

theorem mem_pieces : i ∈ s.pieces.toList ↔ ∃ k < s.pieces.size, s.piece k = i := by
  rw [List.mem_iff_getElem]
  constructor
  · rintro ⟨k, hk, rfl⟩
    rw [Array.length_toList] at hk
    exact ⟨k, hk, by simp [piece, hk]⟩
  · rintro ⟨k, hk, rfl⟩
    exact ⟨k, by simpa using hk, by simp [piece, hk]⟩

theorem pairwise_pieces {R : Interval → Interval → Prop}
    (h : ∀ i < s.pieces.size, ∀ j < s.pieces.size, i ≠ j → R (s.piece i) (s.piece j)) :
    s.pieces.toList.Pairwise R := by
  rw [List.pairwise_iff_getElem]
  intro i j hi hj hij
  rw [Array.length_toList] at hi hj
  have := h i hi j hj (Nat.ne_of_lt hij)
  simpa [piece, hi, hj] using this

theorem Inv.eq_of_fixed (h : Inv given now queue s)
    (hvalues : (given.map Interval.value).Nodup) {g : Interval} (hg : g ∈ given) {k j : Nat}
    (hk : k < s.pieces.size) (hkg : s.piece k = g) (hj : j < s.pieces.size)
    (hv : (s.piece j).value = g.value) : j = k := by
  by_contra hne
  have hcov := Interval.covered_start (h.ordered j hj) (h.inhabited j hj)
  obtain ⟨g', hg', hv', hcov'⟩ := (h.covers g.value _).1 ⟨j, hj, hv, hcov⟩
  obtain rfl : g' = g := List.inj_on_of_nodup_map hvalues hg' hg hv'
  refine h.same_value j hj k hk hne (by rw [hkg, hv]) _ hcov ?_
  rw [hkg]
  exact hcov'

theorem Inv.filter_of_fixed (h : Inv given now queue s) (hvalues : (given.map Interval.value).Nodup)
    {g : Interval} (hg : g ∈ given) (hf : g.isFixed = true) (hne : g.ranges ≠ []) :
    s.pieces.toList.filter (·.value = g.value) = [g] := by
  obtain ⟨k, hk, hkg⟩ := h.given_fixed g hg hf hne
  have hmem : g ∈ s.pieces.toList.filter (·.value = g.value) :=
    List.mem_filter.2 ⟨mem_pieces.2 ⟨k, hk, hkg⟩, by simp⟩
  have hone : s.pieces.toList.Pairwise fun i j => i.value = g.value → j.value ≠ g.value := by
    refine pairwise_pieces fun i hi j hj hij hiv hjv => hij ?_
    rw [h.eq_of_fixed hvalues hg hk hkg hi hiv, h.eq_of_fixed hvalues hg hk hkg hj hjv]
  have hpair := hone.filter (·.value = g.value)
  have hvalue : ∀ i ∈ s.pieces.toList.filter (·.value = g.value), i.value = g.value :=
    fun i hi => by
    simpa using List.of_mem_filter hi
  rcases hlist : s.pieces.toList.filter (·.value = g.value) with _ | ⟨i, _ | ⟨j, rest⟩⟩
  · simp [hlist] at hmem
  · rw [hlist] at hmem
    rw [hlist, List.mem_singleton.1 hmem]
  · rw [hlist] at hpair hvalue
    exact absurd (hvalue j (by simp)) ((List.pairwise_cons.1 hpair).1 j (by simp)
      (hvalue i (by simp)))

theorem Inv.sound (h : Inv given now [] s) (hvalues : (given.map Interval.value).Nodup)
    {maxRegisters : Nat} (hopened : s.opened ≤ maxRegisters) : Sound given maxRegisters s := by
  constructor
  case ordered =>
    intro i hi
    obtain ⟨k, hk, rfl⟩ := mem_pieces.1 hi
    exact ⟨h.ordered k hk, h.inhabited k hk⟩
  case cut => exact pairwise_pieces h.same_value
  case covers =>
    intro v p
    rw [← h.covers v p]
    constructor
    · rintro ⟨i, hi, hv, hp⟩
      obtain ⟨k, hk, rfl⟩ := mem_pieces.1 hi
      exact ⟨k, hk, hv, hp⟩
    · rintro ⟨k, hk, hv, hp⟩
      exact ⟨s.piece k, mem_pieces.2 ⟨k, hk, rfl⟩, hv, hp⟩
  case register =>
    intro i hi
    obtain ⟨k, hk, rfl⟩ := mem_pieces.1 hi
    exact h.placed k hk (by simp)
  case opened => exact hopened
  case fixed => exact fun g hg hf hne => h.filter_of_fixed hvalues hg hf hne
  case apart =>
    intro hgiven
    refine pairwise_pieces fun i hi j hj hij hr => ?_
    by_cases hfixed : (s.piece i).isFixed = true ∧ (s.piece j).isFixed = true
    · -- two fixed pieces are two of the given intervals
      have hgi := h.fixed_given i hi hfixed.1
      have hgj := h.fixed_given j hj hfixed.2
      have hne : s.piece i ≠ s.piece j := by
        intro heq
        exact hij (h.eq_of_fixed hvalues hgj hj rfl hi (by rw [heq]))
      have hsymm : Std.Symm (fun g h : Interval => g.isFixed = true → h.isFixed = true →
          g.register = h.register → g.Disjoint h) :=
        ⟨fun g h hgh hf hf' heq => (hgh hf' hf heq.symm).symm⟩
      exact hgiven.forall hgi hgj hne hfixed.1 hfixed.2 hr
    · exact h.apart i hi j hj hij (by simp) (by simp) hr hfixed

theorem run_cases {s : Scan} (h : run setting intervals = .ok s) :
    ∃ start, intervals.foldlM (Scan.add setting) { opened := setting.ins } = .ok start ∧
      start.opened ≤ setting.maxRegisters ∧
      placeAll setting (totalOf Interval.size intervals + 1) start = .ok s := by
  obtain ⟨start, hstart, h⟩ := Fallible.bind_eq_ok.1 h
  split at h
  · exact absurd h Fallible.throw_ne_ok
  · grind

/-- The intervals a scan works on: each value once, ranges in order, and a register for each fixed
one. -/
structure Proper (intervals : List Interval) : Prop where
  values : (intervals.map Interval.value).Nodup
  ordered : ∀ i ∈ intervals, Ordered i.ranges
  register : ∀ i ∈ intervals, i.isFixed = true → i.register.isSome = true

theorem Proper.started (h : Proper intervals) {start : Scan}
    (hstart : intervals.foldlM (Scan.add setting) { opened := setting.ins } = .ok start) :
    Started setting intervals start := by
  simpa using (Started.empty setting).foldlM (by simpa using h.values) h.ordered h.register hstart

variable (hsplit : ∀ last position, setting.splitPosition? last = some position → position ≤ last)
include hsplit

theorem run_sound (h : Proper intervals) {s : Scan} (hrun : run setting intervals = .ok s) :
    s.waiting = [] ∧ Sound intervals setting.maxRegisters s := by
  obtain ⟨start, hstart, hopened, hplace⟩ := run_cases hrun
  have hstarted := h.started hstart
  obtain ⟨hwaiting, last, hinv⟩ := placeAll_inv hsplit hstarted.inv
    (Nat.lt_succ_of_le hstarted.pending) hplace
  exact ⟨hwaiting, hinv.sound h.values (opened_le_of_placeAll hopened hplace)⟩

/-- A scan takes no more steps than it is given: more would change nothing. -/
theorem run_add_fuel (h : Proper intervals) {start : Scan}
    (hstart : intervals.foldlM (Scan.add setting) { opened := setting.ins } = .ok start)
    (extra : Nat) :
    placeAll setting (totalOf Interval.size intervals + 1 + extra) start =
      placeAll setting (totalOf Interval.size intervals + 1) start := by
  have hstarted := h.started hstart
  exact placeAll_add_fuel hsplit hstarted.inv (Nat.lt_succ_of_le hstarted.pending) extra

end BytecodeOpt.Allocation.Scan
