import BytecodeOpt.Proofs.Allocation.Locations
import BytecodeOpt.Proofs.Allocation.Separation
import BytecodeOpt.Proofs.Scan.Whole

/-!
# Interference

Every value is defined once and before it is read.  So where two values are live at once, the one
that was defined last on the way there was defined while the other was live: one of their intervals
covers the start of the other.  Arguments are defined before anything else.
-/

namespace BytecodeOpt.Allocation

open Ssa Interval

section Blocks

variable {body : Body} {n : Numbering} {l : Liveness} {b : BlockId} {v : Operand} {p q d : Nat}

theorem DefinedAt.mem_definedValues (h : DefinedAt body n b v d) :
    v ∈ (body.block b).definedValues := by
  cases h with
  | phi hphi => exact List.mem_append_left _ hphi
  | op hop hdest =>
    exact List.mem_append_right _ (List.mem_filterMap.2 ⟨_, List.mem_of_getElem? hop, hdest⟩)

theorem exists_definedAt (h : v ∈ (body.block b).definedValues) : ∃ d, DefinedAt body n b v d := by
  rcases List.mem_append.1 h with hphi | hop
  · exact ⟨_, .phi hphi⟩
  · obtain ⟨op, hop, hdest⟩ := List.mem_filterMap.1 hop
    obtain ⟨i, hi⟩ := List.mem_iff_getElem?.1 hop
    exact ⟨_, .op hi hdest⟩

theorem DefinedAt.unique (hwf : body.Regular) (hb : b < body.blockCount)
    (h : DefinedAt body n b v d) (h' : DefinedAt body n b v q) : d = q := by
  have hnodup := List.nodup_append.1 (Body.nodup_definedValues_block hwf.defined_nodup hb)
  have hnot : ∀ {i : Nat} {op : Op}, v ∈ (body.block b).phiDests →
      (body.block b).ops[i]? = some op →
      op.dest? ≠ some v := fun hphi hop hdest =>
    hnodup.2.2 v hphi v (List.mem_filterMap.2 ⟨_, List.mem_of_getElem? hop, hdest⟩) rfl
  cases h with
  | phi hphi =>
    cases h' with
    | phi => rfl
    | op hop hdest => exact absurd hdest (hnot hphi hop)
  | op hop hdest =>
    cases h' with
    | phi hphi => exact absurd hdest (hnot hphi hop)
    | op hop' hdest' => rw [Block.index_eq_of_dest hnodup.2.1 hop hdest hop' hdest']

/-- A value that is there at a position is there at every earlier one of the block, back to its
definition. -/
theorem Occupies.earlier (h : Occupies body n l b v p)
    (hdefined : ∀ d, DefinedAt body n b v d → d ≤ q)
    (hstart : n.blockStart b ≤ q) (hqp : q ≤ p) : Occupies body n l b v q := by
  rcases h with hdef | ⟨-, hstop, -, hneeded⟩
  · obtain rfl := Nat.le_antisymm hqp (hdefined p hdef)
    exact .inl hdef
  · refine .inr ⟨hstart, Nat.lt_of_le_of_lt hqp hstop, hdefined, hneeded.imp_right ?_⟩
    rintro ⟨r, hread, hpr⟩
    exact ⟨r, hread, Nat.le_trans hqp hpr⟩

end Blocks

section Body

variable {body : Body} {b c : BlockId} {v w : Operand} {p d : Nat}

abbrev Arises (body : Body) (b : BlockId) (v : Operand) (d : Nat) : Prop :=
  DefinedAt body (Numbering.ofBody body) b v d

abbrev Present (body : Body) (b : BlockId) (v : Operand) (p : Nat) : Prop :=
  Occupies body (Numbering.ofBody body) (Liveness.ofBody body) b v p

def Interferes (body : Body) (v w : Operand) : Prop :=
  ∃ c < body.blockCount, ∃ d, (Arises body c w d ∧ Present body c v d) ∨
    (Arises body c v d ∧ Present body c w d)

theorem Interferes.symm (h : Interferes body v w) : Interferes body w v := by
  obtain ⟨c, hc, d, h⟩ := h
  exact ⟨c, hc, d, h.symm⟩

abbrev liveIntervals (body : Body) : Intervals :=
  intervalsOf body (Numbering.ofBody body) (Liveness.ofBody body)

theorem unbound_liveIntervals (body : Body) : Unbound body.valueCount (liveIntervals body) :=
  unbound_intervalsOf body (Numbering.ofBody body) (Liveness.ofBody body)

section

variable (hwf : body.Regular)
include hwf

theorem mem_liveInto_of_present (hb : b < body.blockCount) (h : Present body b v p)
    (hnot : v ∉ (body.block b).definedValues) : v ∈ (Liveness.ofBody body).liveInto b := by
  have hsolves := Liveness.solves_ofBody hwf
  rcases h with hdef | ⟨-, -, -, hout | ⟨q, hread, -⟩⟩
  · exact absurd hdef.mem_definedValues hnot
  · exact hsolves.through b hb v hout hnot
  · cases hread with
    | op hop huse =>
      refine hsolves.read b hb _ _ hop v huse (fun hphi => hnot (List.mem_append_left _ hphi))
        fun hdest => ?_
      exact hnot (List.mem_append_right _ (Block.mem_opDests_of_mem_destsBefore hdest))

theorem definedAt_le_of_present (hb : b < body.blockCount)
    (hd : Arises body b v d) (hc : c < body.blockCount) (hp : Present body c v p) : d ≤ p := by
  by_cases hdef : v ∈ (body.block c).definedValues
  · obtain rfl := Body.eq_of_mem_definedValues hwf.defined_nodup hb hc hd.mem_definedValues hdef
    rcases hp with hdef | ⟨-, -, hdefined, -⟩
    · exact Nat.le_of_eq (hd.unique hwf hb hdef)
    · exact hdefined d hd
  · -- it came in scope in a block that is laid out before
    obtain ⟨inScope, hscope⟩ := hwf.in_scope
    have hin := (Liveness.within_ofBody hwf hscope).into c v
      (mem_liveInto_of_present hwf hc hp hdef)
    obtain ⟨before, after, horder⟩ := List.append_of_mem (hwf.mem_reversePostorder.2 hc)
    obtain ⟨e, he, hdef'⟩ := hscope.exists_before horder hin
    have helt : e < body.blockCount := hwf.mem_reversePostorder.1 (by simp [horder, he])
    obtain rfl := Body.eq_of_mem_definedValues hwf.defined_nodup hb helt hd.mem_definedValues hdef'
    have hstop := Numbering.blockStop_le_blockStart horder he
    have hbounds := Occupies.bounds (l := Liveness.ofBody body) (.inl hd)
      (hasRoom_of_regular hwf hb)
    have hbounds' := hp.bounds (hasRoom_of_regular hwf hc)
    omega

theorem block_eq_of_bounds (hb : b < body.blockCount) (hc : c < body.blockCount)
    (hbounds : (Numbering.ofBody body).blockStart b ≤ p ∧ p < (Numbering.ofBody body).blockStop b)
    (hbounds' : (Numbering.ofBody body).blockStart c ≤ p ∧
      p < (Numbering.ofBody body).blockStop c) : b = c := by
  obtain ⟨before, after, horder⟩ := List.append_of_mem (hwf.mem_reversePostorder.2 hb)
  have hmem := hwf.mem_reversePostorder.2 hc
  rw [horder, List.mem_append, List.mem_cons] at hmem
  rcases hmem with hbefore | rfl | hafter
  · have := Numbering.blockStop_le_blockStart horder hbefore
    omega
  · rfl
  · obtain ⟨first, second, rfl⟩ := List.append_of_mem hafter
    have horder' : body.reversePostorder = (before ++ b :: first) ++ c :: second := by simp [horder]
    have := Numbering.blockStop_le_blockStart horder' (b := b) (by simp)
    omega

theorem interferes_of_arises (hb : b < body.blockCount) (hd : Arises body b w d)
    (hlast : ∀ e, Arises body b v e → e ≤ d) (hv : Present body b v p) (hw : Present body b w p) :
    Interferes body v w := by
  have hbounds := Occupies.bounds (l := Liveness.ofBody body) (.inl hd) (hasRoom_of_regular hwf hb)
  exact ⟨b, hb, d, .inl ⟨hd, hv.earlier hlast hbounds.1 (definedAt_le_of_present hwf hb hd hb hw)⟩⟩

/-- Values that are there together interfere in the block, unless both come from before it. -/
theorem interferes_of_present (hb : b < body.blockCount)
    (hv : Present body b v p) (hw : Present body b w p)
    (hinto : v ∈ (Liveness.ofBody body).liveInto b → w ∈ (Liveness.ofBody body).liveInto b →
      Interferes body v w) : Interferes body v w := by
  by_cases hdv : v ∈ (body.block b).definedValues
  · obtain ⟨d, hd⟩ := exists_definedAt (n := Numbering.ofBody body) hdv
    by_cases hdw : w ∈ (body.block b).definedValues
    · obtain ⟨e, he⟩ := exists_definedAt (n := Numbering.ofBody body) hdw
      rcases Nat.le_total d e with hde | hed
      · exact interferes_of_arises hwf hb he (fun f hf => hf.unique hwf hb hd ▸ hde) hv hw
      · exact (interferes_of_arises hwf hb hd (fun f hf => hf.unique hwf hb he ▸ hed) hw hv).symm
    · exact (interferes_of_arises hwf hb hd (fun f hf => absurd hf.mem_definedValues hdw) hw
        hv).symm
  · by_cases hdw : w ∈ (body.block b).definedValues
    · obtain ⟨e, he⟩ := exists_definedAt (n := Numbering.ofBody body) hdw
      exact interferes_of_arises hwf hb he (fun f hf => absurd hf.mem_definedValues hdv) hv hw
    · exact hinto (mem_liveInto_of_present hwf hb hv hdv) (mem_liveInto_of_present hwf hb hw hdw)

/-- Go back on a way that leads to the block, to where the first of the two is defined. -/
theorem interferes_of_liveInto (hb : body.graph.Reaches 0 b)
    (hv : v ∈ (Liveness.ofBody body).liveInto b) (hw : w ∈ (Liveness.ofBody body).liveInto b) :
    Interferes body v w := by
  generalize hentry : (0 : BlockId) = entry at hb
  induction hb with
  | refl =>
    obtain ⟨inScope, hscope⟩ := hwf.in_scope
    subst hentry
    exact absurd ((Liveness.within_ofBody hwf hscope).into 0 v hv) (hscope.entry v)
  | @snoc source target hpath hedge _ _ ih =>
    have hsource : source < body.blockCount := body.size_graph ▸ hpath.lt_size
    rw [Body.successors_graph] at hedge
    have hout := (Liveness.solves_ofBody hwf).edge source hsource target hedge
    exact interferes_of_present hwf hsource (occupies_end hwf hsource (hout v hv))
      (occupies_end hwf hsource (hout w hw)) ih

/-! ## Intervals -/

theorem covered_liveIntervals (hv : v < body.valueCount) :
    Covered ((liveIntervals body).of v).ranges p ↔ ∃ b < body.blockCount, Present body b v p :=
  covered_intervalsOf hwf hv

theorem start_eq_of_arises (hv : v < body.valueCount) (hb : b < body.blockCount)
    (hd : Arises body b v d) : ((liveIntervals body).of v).start = d := by
  have hordered := ((unbound_liveIntervals body).separated v).ordered
  have hcovered := (covered_liveIntervals hwf hv).2 ⟨b, hb, .inl hd⟩
  refine Nat.le_antisymm (start_le hordered hcovered) ?_
  obtain ⟨c, hc, hpresent⟩ := (covered_liveIntervals hwf hv).1
    (covered_start hordered (ne_nil_of_covered hcovered))
  exact definedAt_le_of_present hwf hb hd hc hpresent

/-- Of two intervals that meet, one covers the start of the other. -/
theorem nests_liveIntervals (hv : v < body.valueCount) (hw : w < body.valueCount) :
    ((liveIntervals body).of v).Nests ((liveIntervals body).of w) := by
  intro p hvp hwp
  obtain ⟨b, hb, hvb⟩ := (covered_liveIntervals hwf hv).1 hvp
  obtain ⟨c, hc, hwb⟩ := (covered_liveIntervals hwf hw).1 hwp
  obtain rfl := block_eq_of_bounds hwf hb hc (hvb.bounds (hasRoom_of_regular hwf hb))
    (hwb.bounds (hasRoom_of_regular hwf hc))
  obtain ⟨c, hc, d, ⟨hd, hpresent⟩ | ⟨hd, hpresent⟩⟩ := interferes_of_present hwf hb hvb hwb
    (interferes_of_liveInto hwf (hwf.reachable b hb))
  · left
    rw [start_eq_of_arises hwf hw hc hd]
    exact (covered_liveIntervals hwf hv).2 ⟨c, hc, hpresent⟩
  · right
    rw [start_eq_of_arises hwf hv hc hd]
    exact (covered_liveIntervals hwf hw).2 ⟨c, hc, hpresent⟩

end

/-! ## Arguments -/

theorem size_bindOp (intervals : Intervals) (op : Op) :
    (bindOp intervals op).size = Array.size intervals := by
  unfold bindOp
  split
  · exact Array.size_modify
  · rfl

theorem isFixed_bindOp {intervals : Intervals} (h : (intervals.of v).isFixed = true) (op : Op) :
    ((bindOp intervals op).of v).isFixed = true := by
  unfold bindOp
  split
  · rw [of_modify]
    split
    · rfl
    · exact h
  · exact h

theorem isFixed_of_argument {index : Nat} (hv : v < body.valueCount)
    (hop : (b, .argument v index) ∈ body.ops) :
    (Intervals.of (Assignment.bindArguments body (liveIntervals body)) v).isFixed = true := by
  have hfold : ∀ (ops : List (BlockId × Op)) (intervals : Intervals), v < intervals.size →
      ((intervals.of v).isFixed = true ∨ (b, .argument v index) ∈ ops) →
      (Intervals.of (ops.foldl (fun intervals e => bindOp intervals e.2) intervals) v).isFixed =
        true := by
    intro ops
    induction ops with
    | nil => exact fun _ _ h => h.resolve_right List.not_mem_nil
    | cons e ops ih =>
      intro intervals hsize h
      refine ih (bindOp intervals e.2) (size_bindOp intervals e.2 ▸ hsize) ?_
      rcases h with h | h
      · exact .inl (isFixed_bindOp h e.2)
      · rcases List.mem_cons.1 h with rfl | h
        · left
          rw [bindOp, of_modify, if_pos ⟨rfl, hsize⟩]
        · exact .inr h
  rw [bindArguments_eq]
  exact hfold body.ops _ ((unbound_liveIntervals body).size ▸ hv) (.inr hop)

theorem start_le_of_argument (hwf : body.WellFormed) {index : Nat}
    (hop : (b, .argument v index) ∈ body.ops) (hv : v < body.valueCount) (hw : w < body.valueCount)
    (hmovable : (Intervals.of (Assignment.bindArguments body (liveIntervals body)) w).isFixed =
      false)
    (hne : ((liveIntervals body).of w).ranges ≠ []) :
    ((liveIntervals body).of v).start ≤ ((liveIntervals body).of w).start := by
  have hregular := hwf.toRegular
  obtain ⟨hb, hmem⟩ := Body.mem_ops.1 hop
  obtain ⟨i, hi⟩ := List.mem_iff_getElem?.1 hmem
  obtain ⟨rfl, hfirst⟩ := hwf.arguments b hb i _ hi rfl
  have hvdef : Arises body 0 v _ := .op hi rfl
  rw [start_eq_of_arises hregular hv hb hvdef]
  have hordered := ((unbound_liveIntervals body).separated w).ordered
  obtain ⟨c, hc, hpresent⟩ := (covered_liveIntervals hregular hw).1 (covered_start hordered hne)
  have hbounds := hpresent.bounds (hasRoom_of_regular hregular hc)
  by_cases hentry : c = 0
  · subst hentry
    have hwdef : w ∈ (body.block 0).definedValues := by
      by_contra hnot
      obtain ⟨inScope, hscope⟩ := hwf.in_scope
      exact hscope.entry w ((Liveness.within_ofBody hregular hscope).into 0 w
        (mem_liveInto_of_present hregular hc hpresent hnot))
    obtain ⟨d, hd⟩ := exists_definedAt (n := Numbering.ofBody body) hwdef
    rw [start_eq_of_arises hregular hw hc hd]
    cases hd with
    | phi hphi => simp [Block.phiDests, hwf.entry_phis] at hphi
    | @op j op hop' hdest =>
      by_cases hji : j < i
      · -- then it is an argument too, and not free to move
        have hargument := hfirst j hji
        rw [hop'] at hargument
        cases op <;> simp only [Option.any_some, Op.isArgument, Bool.false_eq_true] at hargument
        cases hdest
        rw [isFixed_of_argument hw (Body.mem_ops.2 ⟨hc, List.mem_of_getElem? hop'⟩)] at hmovable
        cases hmovable
      · unfold Numbering.position
        omega
  · -- the entry is laid out first
    obtain ⟨before, after, horder⟩ := List.append_of_mem (hwf.mem_reversePostorder.2 hc)
    have hbefore : (0 : BlockId) ∈ before := by
      cases before with
      | nil =>
        rcases body.graph.led_reversePostorder 0 [] c after horder with rfl | ⟨e, he, -⟩
        · exact absurd rfl hentry
        · cases he
      | cons e rest =>
        rcases body.graph.led_reversePostorder 0 [] e (rest ++ c :: after) horder with rfl |
          ⟨e', he', -⟩
        · exact List.mem_cons_self
        · cases he'
    have hstop := Numbering.blockStop_le_blockStart horder hbefore
    have hentryBounds := Occupies.bounds (l := Liveness.ofBody body) (.inl hvdef)
      (hasRoom_of_regular hregular hb)
    omega

theorem settled_bindArguments (hwf : body.WellFormed) :
    Scan.Settled (Assignment.bindArguments body (liveIntervals body)).toList := by
  have hbound := bound_bindArguments (unbound_liveIntervals body)
  have hranges := ranges_bindArguments body (liveIntervals body)
  constructor
  case nests =>
    intro i hi j hj
    obtain ⟨v, hv, rfl⟩ := hbound.getElem hi
    obtain ⟨w, hw, rfl⟩ := hbound.getElem hj
    unfold Nests
    rw [start_congr (hranges v), start_congr (hranges w), hranges v, hranges w]
    exact nests_liveIntervals hwf.toRegular hv hw
  case fixed_first =>
    intro i hi j hj hfixed hmovable hne
    obtain ⟨v, hv, rfl⟩ := hbound.getElem hi
    obtain ⟨w, hw, rfl⟩ := hbound.getElem hj
    obtain ⟨index, b, hop, -⟩ := hbound.fixed v hfixed
    rw [hranges w] at hne
    rw [start_congr (hranges v), start_congr (hranges w)]
    exact start_le_of_argument hwf hop hv hw hmovable hne

/-! ## Where a value is live -/

/-- The value is defined at the position, or it is there and still needed. -/
def LiveAt (body : Body) (b : BlockId) (v : Operand) (p : Nat) : Prop :=
  Arises body b v p ∨
    ((∃ d ≤ p, Arises body b v d) ∨ v ∈ (Liveness.ofBody body).liveInto b) ∧
      (v ∈ (Liveness.ofBody body).liveOutOf b ∨
        ∃ q, ReadAt body (Numbering.ofBody body) b v q ∧ p ≤ q)

theorem covered_iff_liveAt (hregular : body.Regular) (hb : b < body.blockCount)
    (hstart : (Numbering.ofBody body).blockStart b ≤ p)
    (hstop : p < (Numbering.ofBody body).blockStop b) (hv : v < body.valueCount) :
    Covered ((liveIntervals body).of v).ranges p ↔ LiveAt body b v p := by
  rw [covered_liveIntervals hregular hv]
  constructor
  · rintro ⟨c, hc, hpresent⟩
    obtain rfl := block_eq_of_bounds hregular hb hc ⟨hstart, hstop⟩
      (hpresent.bounds (hasRoom_of_regular hregular hc))
    refine hpresent.imp_right fun hneeded => ⟨?_, hneeded.2.2.2⟩
    by_cases hdef : v ∈ (body.block b).definedValues
    · obtain ⟨d, hd⟩ := exists_definedAt hdef
      exact .inl ⟨d, hneeded.2.2.1 d hd, hd⟩
    · exact .inr (mem_liveInto_of_present hregular hb hpresent hdef)
  · refine fun hlive =>
      ⟨b, hb, hlive.imp_right fun hneeded => ⟨hstart, hstop, fun d hd => ?_, hneeded.2⟩⟩
    rcases hneeded.1 with ⟨e, hle, he⟩ | hinto
    · exact hd.unique hregular hb he ▸ hle
    · -- what is live into a block is not defined in it
      obtain ⟨inScope, hscope⟩ := hregular.in_scope
      exact absurd ((Liveness.within_ofBody hregular hscope).into b v hinto)
        (hregular.not_inScope hscope hb hd.mem_definedValues)

theorem covers_iff_liveAt (h : body.check = .ok ()) (hb : b < body.blockCount)
    (hstart : (Numbering.ofBody body).blockStart b ≤ p)
    (hstop : p < (Numbering.ofBody body).blockStop b) :
    (∀ v < body.valueCount, ((liveIntervals body).of v).covers p = true ↔ LiveAt body b v p) ∧
      ∀ v < body.valueCount, ∀ w < body.valueCount, LiveAt body b v p → LiveAt body b w p →
        (((liveIntervals body).of v).firstIntersection? ((liveIntervals body).of w)).isSome =
          true := by
  have hregular := (Body.check_eq_ok_iff.1 h).regular (Nat.zero_lt_of_lt hb)
  have hcovered := fun {v} hv => covered_iff_liveAt (v := v) hregular hb hstart hstop hv
  refine ⟨fun v hv => covers_iff.trans (hcovered hv), fun v hv w hw hlive hlive' => ?_⟩
  have hordered := fun v => ((unbound_liveIntervals body).separated v).ordered
  obtain ⟨q, hq, -⟩ := exists_firstCommon? (hordered v) (hordered w) ((hcovered hv).2 hlive)
    ((hcovered hw).2 hlive')
  exact Option.isSome_iff_exists.2 ⟨q, hq⟩

def countingLoop : Body where
  method := ⟨⟨"p.A"⟩, "f", ⟨.int, [.int]⟩⟩
  blocks := #[
    { ops := [.argument 0 0, .const 1 (.int 0), .goto 1] },
    { phis := [⟨2, [1, 3]⟩], ops := [.branch .lt 2 (some 0) 2 3], preds := [0, 2] },
    { ops := [.binary .add .int 3 2 0, .goto 1], preds := [1] },
    { ops := [.ret (some 2)], preds := [1] }]
  values := #[.int, .int, .int, .int]

/-- At the branch of the loop the counter and the bound are live; their intervals meet. -/
theorem covers_iff_liveAt_countingLoop :
    countingLoop.check = .ok () ∧
      LiveAt countingLoop 1 0 10 ∧ LiveAt countingLoop 1 2 10 ∧
      (((liveIntervals countingLoop).of 2).firstIntersection?
        ((liveIntervals countingLoop).of 0)).isSome = true := by
  have h : countingLoop.check = .ok () := by decide +kernel
  obtain ⟨hcovers, hmeet⟩ := covers_iff_liveAt h (b := 1) (p := 10) (by decide) (by decide +kernel)
    (by decide +kernel)
  have hbound := (hcovers 0 (by decide)).1 (by decide +kernel)
  have hcounter := (hcovers 2 (by decide)).1 (by decide +kernel)
  exact ⟨h, hbound, hcounter, hmeet 2 (by decide) 0 (by decide) hcounter hbound⟩

end Body

end BytecodeOpt.Allocation
