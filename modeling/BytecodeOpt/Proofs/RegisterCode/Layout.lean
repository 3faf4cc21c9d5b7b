import BytecodeOpt.Proofs.RegisterCode.Execution
import Mathlib.Data.List.TakeWhile

/-!
# Blocks in a row

Lowering puts the instructions of the blocks one after the other.  From the index of a block on
there stands what the block and those behind it are lowered to; that index takes the place of the
block in branches and handlers.  Merging try ranges does not change which handlers an instruction
has.
-/

namespace BytecodeOpt

/-! ## Branch targets -/

namespace Instruction

def mapTargets (f : Nat → Nat) : Instruction → Instruction
  | .goto target => .goto (f target)
  | .branch cond left right target => .branch cond left right (f target)
  | .switch value keys targets => .switch value keys (targets.map f)
  | other => other

@[simp] theorem targets_mapTargets (f : Nat → Nat) (i : Instruction) :
    (i.mapTargets f).targets = i.targets.map f := by
  cases i <;> rfl

@[simp] theorem endsFlow_mapTargets (f : Nat → Nat) (i : Instruction) :
    (i.mapTargets f).endsFlow = i.endsFlow := by
  cases i <;> rfl

theorem mapTargetsM_eq_ok {ε : Type} {f : Nat → Except ε Nat} {g : Nat → Nat} {i : Instruction}
    (h : ∀ t ∈ i.targets, f t = .ok (g t)) : i.mapTargetsM f = .ok (i.mapTargets g) := by
  cases i with
  | goto target | branch cond left right target =>
    rw [mapTargetsM, h target (by simp [targets])]
    rfl
  | switch value keys ts =>
    have hts : ts.mapM f = .ok (ts.map g) :=
      Fallible.mapM_eq_ok.2 (List.forall₂_map_right_iff.2 (List.forall₂_same.2 h))
    rw [mapTargetsM, hts]
    rfl
  | _ => rfl

end Instruction

namespace RegisterCode

variable {firstWide : Option String} {blocks rest : List RegisterBlock}
  {b c : RegisterBlock} {index : Nat} {i : Instruction} {code : RegisterCode} {t : BlockId}

/-! ## What stands where -/

def next? (rest : List RegisterBlock) : Option BlockId := rest.head?.map RegisterBlock.id

def lowerBlock (firstWide : Option String) (rest : List RegisterBlock) (b : RegisterBlock) :
    List Instruction :=
  b.ops.flatMap (lowerOp firstWide (next? rest))

def inRow (firstWide : Option String) : List RegisterBlock → List Instruction
  | [] => []
  | b :: rest => lowerBlock firstWide rest b ++ inRow firstWide rest

def startIn (firstWide : Option String) (b : BlockId) : List RegisterBlock → Nat
  | [] => 0
  | c :: rest =>
    if c.id = b then 0 else (lowerBlock firstWide rest c).length + startIn firstWide b rest

def originIn (firstWide : Option String) : List RegisterBlock → Nat → Option RegisterBlock
  | [], _ => none
  | b :: rest, index =>
    let size := (lowerBlock firstWide rest b).length
    if index < size then some b else originIn firstWide rest (index - size)

def start (code : RegisterCode) (firstWide : Option String) (b : BlockId) : Nat :=
  startIn firstWide b code.blocks

def origin? (code : RegisterCode) (firstWide : Option String) (index : Nat) :
    Option RegisterBlock :=
  originIn firstWide code.blocks index

theorem flatMap_placeFrom (firstWide : Option String) (index : Nat) (blocks : List RegisterBlock) :
    (placeFrom firstWide index blocks).flatMap Placed.instructions = inRow firstWide blocks := by
  induction blocks generalizing index with
  | nil => rfl
  | cons b rest ih =>
    rw [placeFrom, List.flatMap_cons, ih]
    rfl

theorem map_id_placeFrom (firstWide : Option String) (index : Nat) (blocks : List RegisterBlock) :
    (placeFrom firstWide index blocks).map Placed.id = blocks.map RegisterBlock.id := by
  induction blocks generalizing index with
  | nil => rfl
  | cons b rest ih => rw [placeFrom, List.map_cons, ih, List.map_cons]

theorem exists_placed_of_mem (firstWide : Option String) (index : Nat)
    (ht : t ∈ blocks.map RegisterBlock.id) :
    ∃ p ∈ placeFrom firstWide index blocks, p.id = t ∧ p.start = index + startIn firstWide
      t blocks := by
  induction blocks generalizing index with
  | nil => simp at ht
  | cons b rest ih =>
    rw [placeFrom, startIn]
    by_cases hb : b.id = t
    · exact ⟨_, List.mem_cons_self, hb, by simp [hb]⟩
    · have hrest : t ∈ rest.map RegisterBlock.id := by
        simpa [Ne.symm hb] using ht
      obtain ⟨p, hp, hid, hstart⟩ := ih (index + (lowerBlock firstWide rest b).length) hrest
      refine ⟨p, List.mem_cons_of_mem _ hp, hid, ?_⟩
      rw [hstart, if_neg hb, Nat.add_assoc]

theorem startOf_eq_ok (hnodup : (blocks.map RegisterBlock.id).Nodup)
    (ht : t ∈ blocks.map RegisterBlock.id) (fault : BlockId → Fault) :
    startOf (placeFrom firstWide 0 blocks) fault t = .ok (startIn firstWide t blocks) := by
  obtain ⟨p, hp, hid, hstart⟩ := exists_placed_of_mem firstWide 0 ht
  obtain ⟨q, hq⟩ : ∃ q, (placeFrom firstWide 0 blocks).reverse.find? (·.id = t) = some q :=
    Option.isSome_iff_exists.1 (List.find?_isSome.2 ⟨p, List.mem_reverse.2 hp, by simpa using hid⟩)
  obtain rfl : q = p := by
    rw [← map_id_placeFrom firstWide 0] at hnodup
    refine List.inj_on_of_nodup_map hnodup ?_ hp ?_
    · exact List.mem_reverse.1 (List.mem_of_find?_eq_some hq)
    · grind
  rw [startOf, hq]
  simp [hstart]

theorem drop_startIn (firstWide : Option String) (t : BlockId) (blocks : List RegisterBlock) :
    (inRow firstWide blocks).drop (startIn firstWide t blocks) =
      inRow firstWide (blocks.dropWhile (·.id ≠ t)) := by
  induction blocks with
  | nil => rfl
  | cons b rest ih =>
    by_cases hb : b.id = t
    · simp [startIn, hb]
    · rw [startIn, if_neg hb, inRow, ← List.drop_drop, List.drop_left, ih]
      simp [hb]

/-! ## Targets -/

theorem eq_goto_of_mem_jumpUnlessNext {next : Option BlockId} {target : BlockId}
    (hi : i ∈ jumpUnlessNext next target) :
    i = .goto target := by
  unfold jumpUnlessNext at hi
  split at hi
  · simp at hi
  · simpa using hi

theorem targets_resultOf {dest : Option Operand} (hi : i ∈ resultOf dest) : i.targets = [] := by
  obtain ⟨d, -, rfl⟩ : ∃ d, dest = some d ∧ .moveResult (register d) = i := by
    simpa [resultOf] using hi
  rfl

theorem mem_targets_of_lowerOp {op : Op} {next : Option BlockId}
    (hi : i ∈ lowerOp firstWide next op) :
    ∀ t ∈ i.targets, t ∈ op.targets := by
  intro t ht
  cases op with
  | const dest value =>
    cases value <;> obtain rfl := List.mem_singleton.1 hi <;> simp [Instruction.targets] at ht
  | invoke _ _ _ _ | invokeCustom _ _ _ | filledNewArray _ _ _ =>
    rcases List.mem_cons.1 hi with rfl | hi
    · simp [Instruction.targets] at ht
    · simp [targets_resultOf hi] at ht
  | checkCast dest value type =>
    rcases List.mem_append.1 hi with hi | hi
    · split at hi
      · simp at hi
      · obtain rfl := List.mem_singleton.1 hi
        simp [Instruction.targets] at ht
    · obtain rfl := List.mem_singleton.1 hi
      simp [Instruction.targets] at ht
  | goto target =>
    obtain rfl := eq_goto_of_mem_jumpUnlessNext hi
    exact ht
  | branch cond left right onTrue onFalse =>
    rcases List.mem_cons.1 hi with rfl | hi
    · obtain rfl := List.mem_singleton.1 ht
      simp [Op.targets]
    · obtain rfl := eq_goto_of_mem_jumpUnlessNext hi
      obtain rfl := List.mem_singleton.1 ht
      simp [Op.targets]
  | switch value keys ts default =>
    rcases List.mem_cons.1 hi with rfl | hi
    · exact List.mem_append_left _ ht
    · obtain rfl := eq_goto_of_mem_jumpUnlessNext hi
      exact List.mem_append_right _ ht
  | argument _ _ => simp [lowerOp] at hi
  | _ =>
    obtain rfl := List.mem_singleton.1 hi
    simp [Instruction.targets] at ht

theorem exists_op_of_mem_inRow (hi : i ∈ inRow firstWide blocks) :
    ∃ b ∈ blocks, ∃ op ∈ b.ops, ∀ t ∈ i.targets, t ∈ op.targets := by
  induction blocks with
  | nil => simp [inRow] at hi
  | cons b rest ih =>
    rcases List.mem_append.1 hi with hi | hi
    · obtain ⟨op, hop, hi⟩ := List.mem_flatMap.1 hi
      exact ⟨b, List.mem_cons_self, op, hop, mem_targets_of_lowerOp hi⟩
    · grind

/-! ## Try ranges -/

def resolveHandler (code : RegisterCode) (firstWide : Option String) (h : Handler) : Handler :=
  { h with target := code.start firstWide h.target }

def rangeOf (resolve : Handler → Handler) (p : Placed) : List TryRange :=
  if p.handlers.isEmpty || p.instructions.isEmpty then []
  else [{ start := p.start, stop := p.stop, handlers := p.handlers.map resolve }]

theorem tryOf_eq_ok (h : code.WellFormed) {p : Placed}
    (hp : ∀ h ∈ p.handlers, h.target ∈ code.blocks.map RegisterBlock.id) :
    tryOf (placeFrom firstWide 0 code.blocks) p =
      .ok (rangeOf (code.resolveHandler firstWide) p) := by
  unfold tryOf rangeOf
  split
  · rfl
  · have hall : (p.handlers.mapM fun h => do
        return { h with target := ← startOf (placeFrom firstWide
          0 code.blocks) .missingHandler h.target }) =
        .ok (p.handlers.map (code.resolveHandler firstWide)) := by
      refine Fallible.mapM_eq_ok.2 (List.forall₂_map_right_iff.2 (List.forall₂_same.2 ?_))
      intro handler hh
      rw [startOf_eq_ok h.nodup (hp handler hh)]
      rfl
    rw [hall]
    rfl

theorem exists_block_of_placed {p : Placed} (hp : p ∈ placeFrom firstWide index blocks) :
    ∃ b ∈ blocks, p.handlers = b.handlers := by
  induction blocks generalizing index with
  | nil => simp [placeFrom] at hp
  | cons b rest ih =>
    rcases List.mem_cons.1 hp with rfl | hp
    · exact ⟨b, List.mem_cons_self, rfl⟩
    · grind

def ranges (firstWide : Option String) (resolve : Handler → Handler) (index : Nat)
    (blocks : List RegisterBlock) : List TryRange :=
  (placeFrom firstWide index blocks).flatMap (rangeOf resolve)

/-- Well-formed blocks can be lowered. -/
theorem WellFormed.lower_eq_ok (h : code.WellFormed) (firstWide : Option String) :
    code.lower firstWide = .ok {
      registers := code.registers
      ins := code.ins
      instructions :=
        (inRow firstWide code.blocks).map (Instruction.mapTargets (code.start firstWide))
      tries := (ranges firstWide (code.resolveHandler firstWide) 0 code.blocks).foldl
        addTry [] } := by
  have hinstructions : ((placeFrom firstWide 0 code.blocks).flatMap Placed.instructions).mapM
      (Instruction.mapTargetsM (startOf (placeFrom firstWide 0 code.blocks) .missingBlock)) =
      .ok ((inRow firstWide code.blocks).map (Instruction.mapTargets (code.start firstWide))) := by
    rw [flatMap_placeFrom]
    refine Fallible.mapM_eq_ok.2 (List.forall₂_map_right_iff.2 (List.forall₂_same.2 ?_))
    intro i hi
    obtain ⟨b, hb, op, hop, htargets⟩ := exists_op_of_mem_inRow hi
    exact Instruction.mapTargetsM_eq_ok fun t ht =>
      startOf_eq_ok h.nodup (h.targets b hb op hop t (htargets t ht)) _
  have htries : (placeFrom firstWide 0 code.blocks).mapM
      (tryOf (placeFrom firstWide 0 code.blocks)) =
      .ok ((placeFrom firstWide 0 code.blocks).map (rangeOf (code.resolveHandler firstWide))) := by
    refine Fallible.mapM_eq_ok.2 (List.forall₂_map_right_iff.2 (List.forall₂_same.2 ?_))
    intro p hp
    obtain ⟨b, hb, hhandlers⟩ := exists_block_of_placed hp
    exact tryOf_eq_ok h (hhandlers ▸ h.handlers b hb)
  simp only [lower, hinstructions, htries]
  rfl

/-! ## Merged try ranges -/

structure Ordered (ts : List TryRange) : Prop where
  apart : ts.Pairwise fun t u => t.stop ≤ u.start
  forward : ∀ t ∈ ts, t.start ≤ t.stop

def handlersIn (ts : List TryRange) (index : Nat) : List Handler :=
  ((ts.find? (·.covers index)).map TryRange.handlers).getD []

theorem covers_merged {t u : TryRange} (ht : t.start ≤ t.stop) (hu : u.start ≤ u.stop)
    (hadjacent : t.stop = u.start) (index : Nat) :
    { t with stop := u.stop }.covers index = (t.covers index || u.covers index) := by
  rw [Bool.eq_iff_iff]
  simp only [TryRange.covers, Bool.and_eq_true, Bool.or_eq_true, decide_eq_true_eq]
  omega

theorem addTry_concat (init : List TryRange) (last t : TryRange) :
    addTry (init ++ [last]) t =
      if last.stop = t.start ∧ last.handlers = t.handlers then init ++
        [{ last with stop := t.stop }]
      else init ++ [last, t] := by
  simp [addTry]

theorem Ordered.merged {init rest : List TryRange} {last t : TryRange}
    (h : Ordered (init ++ last :: t :: rest))
    (hadjacent : last.stop = t.start) : Ordered (init ++ { last with stop := t.stop } :: rest) := by
  obtain ⟨hapart, hforward⟩ := h
  have ht := hforward t (by simp)
  have hlast := hforward last (by simp)
  simp only [List.pairwise_append, List.pairwise_cons, List.mem_cons, forall_eq_or_imp] at hapart
  constructor
  · simp only [List.pairwise_append, List.pairwise_cons, List.mem_cons, forall_eq_or_imp]
    refine ⟨hapart.1, ⟨hapart.2.1.2.1, hapart.2.1.2.2⟩, fun u hu => ⟨?_, ?_⟩⟩
    · exact (hapart.2.2 u hu).1
    · exact (hapart.2.2 u hu).2.2
  · grind

theorem handlersIn_merged {init rest : List TryRange} {last t : TryRange}
    (h : Ordered (init ++ last :: t :: rest))
    (hadjacent : last.stop = t.start) (hhandlers : last.handlers = t.handlers) (index : Nat) :
    handlersIn (init ++ { last with stop := t.stop } :: rest) index =
      handlersIn (init ++ last :: t :: rest) index := by
  have hcovers := covers_merged (h.forward last (by simp)) (h.forward t (by simp)) hadjacent index
  simp only [handlersIn, List.find?_append, List.find?_cons, hcovers]
  cases init.find? (·.covers index) with
  | none => cases last.covers index <;> cases t.covers index <;> simp [hhandlers]
  | some u => rfl

theorem handlersIn_foldl_addTry {ts us : List TryRange} (h : Ordered (ts ++ us)) (index : Nat) :
    handlersIn (us.foldl addTry ts) index = handlersIn (ts ++ us) index := by
  induction us generalizing ts with
  | nil => rw [List.foldl_nil, List.append_nil]
  | cons t rest ih =>
    rw [List.foldl_cons]
    rcases List.eq_nil_or_concat' ts with rfl | ⟨init, last, rfl⟩
    · exact ih h
    · rw [addTry_concat]
      simp only [List.append_assoc, List.cons_append, List.nil_append] at h ⊢
      split
      · rename_i hmerge
        rw [ih (by simpa using h.merged hmerge.1)]
        simpa using handlersIn_merged h hmerge.1 hmerge.2 index
      · grind

theorem exists_handlers_of_addTry {ts : List TryRange} {t u : TryRange} (hu : u ∈ addTry ts t) :
    ∃ v ∈ ts ++ [t], u.handlers = v.handlers := by
  rcases List.eq_nil_or_concat' ts with rfl | ⟨init, last, rfl⟩
  · exact ⟨u, hu, rfl⟩
  · rw [addTry_concat] at hu
    split at hu
    · grind
    · exact ⟨u, by simpa using hu, rfl⟩

theorem exists_handlers_of_foldl_addTry {ts us : List TryRange} {t : TryRange}
    (ht : t ∈ us.foldl addTry ts) : ∃ u ∈ ts ++ us, t.handlers = u.handlers := by
  induction us generalizing ts with
  | nil => exact ⟨t, by simpa using ht, rfl⟩
  | cons u rest ih =>
    obtain ⟨v, hv, hhandlers⟩ := ih ht
    rcases List.mem_append.1 hv with hv | hv
    · obtain ⟨x, hx, hsame⟩ := exists_handlers_of_addTry hv
      refine ⟨x, ?_, hhandlers.trans hsame⟩
      rw [List.append_cons]
      exact List.mem_append_left rest hx
    · exact ⟨v, by simp [hv], hhandlers⟩

/-! ## Handlers of an instruction -/

theorem mem_ranges {resolve : Handler → Handler} {t : TryRange}
    (ht : t ∈ ranges firstWide resolve index blocks) :
    index ≤ t.start ∧ t.start ≤ t.stop ∧ ∃ b ∈ blocks, t.handlers = b.handlers.map resolve := by
  induction blocks generalizing index with
  | nil => simp [ranges, placeFrom] at ht
  | cons b rest ih =>
    rw [ranges, placeFrom, List.flatMap_cons] at ht
    rcases List.mem_append.1 ht with ht | ht
    · unfold rangeOf at ht
      split at ht
      · simp at ht
      · obtain rfl := List.mem_singleton.1 ht
        exact ⟨le_rfl, Nat.le_add_right _ _, b, List.mem_cons_self, rfl⟩
    · obtain ⟨hle, hforward, c, hc, hhandlers⟩ := ih ht
      exact ⟨by omega, hforward, c, List.mem_cons_of_mem b hc, hhandlers⟩

theorem ordered_ranges (firstWide : Option String) (resolve : Handler → Handler) (index : Nat)
    (blocks : List RegisterBlock) : Ordered (ranges firstWide resolve index blocks) := by
  refine ⟨?_, fun t ht => (mem_ranges ht).2.1⟩
  induction blocks generalizing index with
  | nil => exact List.Pairwise.nil
  | cons b rest ih =>
    rw [ranges, placeFrom, List.flatMap_cons]
    refine List.pairwise_append.2 ⟨?_, ih _, fun t ht u hu => ?_⟩
    · unfold rangeOf
      split <;> simp
    · have hle := (mem_ranges hu).1
      unfold rangeOf at ht
      split at ht
      · simp at ht
      · obtain rfl := List.mem_singleton.1 ht
        exact hle

theorem handlersIn_of_lt {ts : List TryRange} (h : ∀ t ∈ ts, index < t.start) :
    handlersIn ts index = [] := by
  have hnone : ts.find? (·.covers index) = none := by
    refine List.find?_eq_none.2 fun t ht => ?_
    have hlt := h t ht
    simp only [TryRange.covers, Bool.and_eq_true, decide_eq_true_eq]
    omega
  rw [handlersIn, hnone]
  rfl

theorem handlersIn_ranges (resolve : Handler → Handler) (first : Nat)
    (horigin : originIn firstWide blocks index = some b) :
    handlersIn (ranges firstWide resolve first blocks) (first + index) =
      b.handlers.map resolve := by
  induction blocks generalizing first index with
  | nil => simp [originIn] at horigin
  | cons c rest ih =>
    rw [ranges, placeFrom, List.flatMap_cons]
    change handlersIn (rangeOf resolve ⟨c.id, first, lowerBlock firstWide rest c, c.handlers⟩ ++
      ranges firstWide resolve (first + (lowerBlock firstWide rest c).length) rest) _ = _
    simp only [originIn] at horigin
    unfold rangeOf
    split at horigin
    · -- the instruction is one of the first block, and no other range reaches it
      rename_i hlt
      obtain rfl := Option.some.inj horigin
      have hne : (lowerBlock firstWide rest c).isEmpty = false := by
        cases hl : lowerBlock firstWide rest c with
        | nil => simp [hl] at hlt
        | cons _ _ => rfl
      cases hhandlers : c.handlers with
      | nil =>
        simp only [List.isEmpty_nil, Bool.true_or, if_true, List.nil_append, List.map_nil]
        exact handlersIn_of_lt fun t ht => by have := (mem_ranges ht).1; omega
      | cons h hs =>
        have hcovers : ∀ hs, (TryRange.mk first (first + (lowerBlock firstWide rest c).length)
            hs).covers (first + index) = true := by
          simp [TryRange.covers, hlt]
        simp [hne, handlersIn, Placed.stop, hcovers]
    · -- the instruction is behind the first block
      rename_i hge
      have hskip :
          ∀ hs, (TryRange.mk first (first + (lowerBlock firstWide rest c).length) hs).covers
          (first + index) = false := by
        intro hs
        simp only [TryRange.covers, Bool.and_eq_false_iff, decide_eq_false_iff_not]
        omega
      have hrest := ih (first + (lowerBlock firstWide rest c).length) horigin
      rw [show first + (lowerBlock firstWide rest c).length +
        (index - (lowerBlock firstWide rest c).length) = first + index by omega] at hrest
      split
      · exact hrest
      · rw [← hrest, handlersIn, handlersIn]
        simp [Placed.stop, hskip]

theorem WellFormed.handlersAt_lowered {raw : Code} (h : code.WellFormed)
    (hraw : code.lower firstWide = .ok raw) (horigin : code.origin? firstWide index = some b) :
    raw.handlersAt index = b.handlers.map (code.resolveHandler firstWide) := by
  rw [h.lower_eq_ok] at hraw
  obtain rfl := Except.ok.inj hraw
  have hordered := ordered_ranges firstWide (code.resolveHandler firstWide) 0 code.blocks
  have hmerged : handlersIn (List.foldl addTry [] _) index = handlersIn ([] ++ _) index :=
    handlersIn_foldl_addTry hordered index
  have hunmerged := handlersIn_ranges (code.resolveHandler firstWide) 0 horigin
  rw [Nat.zero_add] at hunmerged
  exact hmerged.trans hunmerged

/-! ## Where control can go -/

theorem endsFlow_lowerOp (firstWide : Option String) {op : Op} (h : op.isTerminator = true) :
    ∃ init last, lowerOp firstWide none op = init ++ [last] ∧ last.endsFlow = true := by
  cases op with
  | goto target => exact ⟨[], _, rfl, rfl⟩
  | branch cond left right onTrue onFalse => exact ⟨[_], _, rfl, rfl⟩
  | switch value keys targets default => exact ⟨[_], _, rfl, rfl⟩
  | ret value => exact ⟨[], _, rfl, rfl⟩
  | throw value => exact ⟨[], _, rfl, rfl⟩
  | _ => simp [Op.isTerminator] at h

theorem endsFlow_inRow (firstWide : Option String) (hne : blocks ≠ [])
    (hterminated : ∀ b ∈ blocks, ∃ before last, b.ops = before ++ [last] ∧
      last.isTerminator = true ∧ ∀ op ∈ before, op.isTerminator = false) :
    ∃ init last, inRow firstWide blocks = init ++ [last] ∧ last.endsFlow = true := by
  induction blocks with
  | nil => exact absurd rfl hne
  | cons b rest ih =>
    cases rest with
    | nil =>
      obtain ⟨before, op, hops, hop, -⟩ := hterminated b List.mem_cons_self
      obtain ⟨init, last, hlast, hends⟩ := endsFlow_lowerOp firstWide hop
      refine ⟨before.flatMap (lowerOp firstWide none) ++ init, last, ?_, hends⟩
      simp [inRow, lowerBlock, next?, hops, hlast]
    | cons c rest =>
      obtain ⟨init, last, hlast, hends⟩ := ih (by simp) fun b hb =>
        hterminated b (List.mem_cons_of_mem _ hb)
      refine ⟨lowerBlock firstWide (c :: rest) b ++ init, last, ?_, hends⟩
      rw [inRow, hlast, List.append_assoc]

namespace WellFormed

variable {code : RegisterCode}

theorem start_lt (h : code.WellFormed) (ht : t ∈ code.blocks.map RegisterBlock.id) :
    code.start firstWide t < (inRow firstWide code.blocks).length := by
  obtain ⟨b, hb, rfl⟩ := List.mem_map.1 ht
  have hne : code.blocks.dropWhile (·.id ≠ b.id) ≠ [] := by
    rw [Ne, List.dropWhile_eq_nil_iff]
    intro hall
    simpa using hall b hb
  obtain ⟨init, last, hlast, -⟩ := endsFlow_inRow firstWide hne fun c hc =>
    h.terminated c ((List.dropWhile_sublist _).subset hc)
  have hdrop := congrArg List.length (drop_startIn firstWide b.id code.blocks)
  rw [hlast, List.length_drop] at hdrop
  simp only [List.length_append, List.length_singleton] at hdrop
  rw [start]
  omega

end WellFormed

end RegisterCode

structure Code.Closed (code : Code) : Prop where
  targets : ∀ i ∈ code.instructions, ∀ t ∈ i.targets, t < code.instructions.length
  falls : ∀ index i, code.instructions[index]? = some i → i.endsFlow = false →
    index + 1 < code.instructions.length
  handlers : ∀ t ∈ code.tries, ∀ h ∈ t.handlers, h.target < code.instructions.length

namespace RegisterCode

theorem WellFormed.closed_lowered {code : RegisterCode} {raw : Code} {firstWide : Option String}
    (h : code.WellFormed) (hraw : code.lower firstWide = .ok raw) : raw.Closed := by
  rw [h.lower_eq_ok] at hraw
  obtain rfl := Except.ok.inj hraw
  constructor
  case targets =>
    intro i hi t ht
    obtain ⟨j, hj, rfl⟩ := List.mem_map.1 hi
    rw [Instruction.targets_mapTargets] at ht
    obtain ⟨u, hu, rfl⟩ := List.mem_map.1 ht
    obtain ⟨b, hb, op, hop, htargets⟩ := exists_op_of_mem_inRow hj
    rw [List.length_map]
    exact h.start_lt (h.targets b hb op hop u (htargets u hu))
  case falls =>
    intro index i hi hflow
    have hlt := (List.getElem?_eq_some_iff.1 hi).1
    have hne : code.blocks ≠ [] := by
      rintro hnil
      simp [hnil, inRow] at hlt
    obtain ⟨init, last, hlast, hends⟩ := endsFlow_inRow firstWide hne h.terminated
    simp only [hlast, List.map_append, List.map_cons, List.map_nil, List.length_append,
      List.length_map, List.length_singleton] at hlt hi ⊢
    by_contra hend
    obtain rfl : index = init.length := by omega
    obtain rfl : last.mapTargets (code.start firstWide) = i := by simpa using hi
    simp [hends] at hflow
  case handlers =>
    intro t ht handler hh
    obtain ⟨u, hu, hhandlers⟩ := exists_handlers_of_foldl_addTry ht
    obtain ⟨-, -, b, hb, hb'⟩ := mem_ranges (List.mem_append.1 hu |>.resolve_left (by simp))
    rw [hhandlers, hb'] at hh
    obtain ⟨original, horiginal, rfl⟩ := List.mem_map.1 hh
    rw [List.length_map]
    exact h.start_lt (h.handlers b hb original horiginal)

theorem exists_origin {firstWide : Option String} {blocks : List RegisterBlock} {index : Nat}
    (h : index < (inRow firstWide blocks).length) :
    ∃ b ∈ blocks, originIn firstWide blocks index = some b := by
  induction blocks generalizing index with
  | nil => simp [inRow] at h
  | cons b rest ih =>
    simp only [originIn]
    split
    · exact ⟨b, List.mem_cons_self, rfl⟩
    · rw [inRow, List.length_append] at h
      have hrest : index - (lowerBlock firstWide rest b).length <
          (inRow firstWide rest).length := by
        omega
      obtain ⟨c, hc, horigin⟩ := ih hrest
      exact ⟨c, List.mem_cons_of_mem b hc, horigin⟩

end RegisterCode

end BytecodeOpt
