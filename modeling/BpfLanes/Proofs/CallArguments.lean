import BpfLanes.Proofs.Overwrites

/-! # Arguments of helper calls

A helper takes its arguments from fixed registers, which the word of the call does not
name. So a call waits for nothing in its block: it goes into the last row that the
block uses, or behind it if no lane is left there that a branch may take. What the
block writes for the helper is in time exactly if it stands before that row or no such
lane is left. It is still in the register where the helper looks for it if nothing
else needs the value, or if the block overwrites registers in place only.
-/

namespace BpfLanes

open Compilation BpfLanes.Flow

variable {f : Fields} {i : Instr} {reg : Int} {k : Nat}

namespace Schedule

open Placement Dependence

/-! ## Slots at the end of a block -/

/-- A lane that a branch may take. -/
def BranchLane (target : Target) (lane : Int) : Prop :=
  (0 ≤ lane ∧ lane < target.lanes) ∧ (target.branchAnyLane = false → lane = 0)

instance (target : Target) (lane : Int) : Decidable (BranchLane target lane) :=
  inferInstanceAs (Decidable ((0 ≤ lane ∧ lane < target.lanes) ∧
    (target.branchAnyLane = false → lane = 0)))

/-- A slot behind row `top` could take branch `m` of a block: no earlier instruction of the
    block stands in it or in a later row. -/
structure OpenAtEnd (c d : Compilation) (blk : Block) (top : Int) (m : Nat) (row lane : Int) :
    Prop where
  after : top < row
  allowed : BranchLane c.target lane
  behind : ∀ k rk lk, k < m → StandsAt d blk k rk lk → rk ≤ row
  free : ∀ k, k < m → ¬ StandsAt d blk k row lane

/-- Branch `m` of a block stands in the first row that could take it. -/
structure PlacedAtEnd (c d : Compilation) (blk : Block) (top : Int) (m : Nat) (row lane : Int) :
    Prop where
  stands : StandsAt d blk m row lane
  isOpen : OpenAtEnd c d blk top m row lane
  first : ∀ row' lane', OpenAtEnd c d blk top m row' lane' → row ≤ row'

variable {Q : Instr → Prop} {words : Array Word} {c c₀ d e : Compilation} {b m : Nat} {blk : Block}
  {g : Digraph} {top lastRow row lane : Int} {order done rest : List Int} {r r' : Reach}

theorem OpenAtEnd.congr (h : OpenAtEnd c d blk top m row lane)
    (hsame : ∀ k, k < m → placeIn e blk k = placeIn d blk k) :
    OpenAtEnd c e blk top m row lane := by
  have hstands : ∀ k row lane, k < m → StandsAt e blk k row lane → StandsAt d blk k row lane := by
    intro k row lane hk hs
    unfold StandsAt at hs ⊢
    rwa [← hsame k hk]
  refine ⟨h.after, h.allowed, ?_, ?_⟩
  · intro k rk lk hk hs
    exact h.behind k rk lk hk (hstands k rk lk hk hs)
  · intro k hk hs
    exact h.free k hk (hstands k row lane hk hs)

theorem PlacedAtEnd.congr (h : PlacedAtEnd c d blk top m row lane)
    (hsame : ∀ k, k ≤ m → placeIn e blk k = placeIn d blk k) :
    PlacedAtEnd c e blk top m row lane := by
  refine ⟨?_, h.isOpen.congr fun k hk => hsame k (by omega), ?_⟩
  · have hs := h.stands
    unfold StandsAt at hs ⊢
    rwa [hsame m (Nat.le_refl m)]
  · intro row' lane' hopen
    exact h.first row' lane' (hopen.congr fun k hk => (hsame k (by omega)).symm)

theorem PlacedAtEnd.lt_iff (h : PlacedAtEnd c d blk top m row lane) {rk lk : Int} (hk : k < m)
    (hs : StandsAt d blk k rk lk) (htop : top < rk) :
    rk < row ↔ (∃ i ri li, i < m ∧ StandsAt d blk i ri li ∧ rk < ri) ∨
      ∀ lane, BranchLane c.target lane → ∃ i, i < m ∧ StandsAt d blk i rk lane := by
  constructor
  · intro hlt
    by_contra hno
    push Not at hno
    obtain ⟨hlater, lane', hlane', hfree⟩ := hno
    -- a lane that is left would have been taken
    have hopen : OpenAtEnd c d blk top m rk lane' := by
      refine ⟨htop, hlane', ?_, hfree⟩
      intro i ri li hi hsi
      exact hlater i ri li hi hsi
    have := h.first rk lane' hopen
    omega
  · intro hcase
    have hle := h.isOpen.behind k rk lk hk hs
    rcases hcase with ⟨i, ri, li, hi, hsi, hlt⟩ | hfull
    · have := h.isOpen.behind i ri li hi hsi
      omega
    · by_contra hnot
      obtain rfl : rk = row := by omega
      obtain ⟨i, hi, hsi⟩ := hfull lane h.isOpen.allowed
      exact h.isOpen.free i hi hsi

/-! ## Placing a branch that reads nothing -/

section
variable (hc : Laid Q words c) (ho : Opened c c₀ b blk g lastRow order)
  (hd : Partly c₀ b blk g lastRow order done r d) (horder : order = done ++ (k : Int) :: rest)
include hc ho hd horder

omit hd in
theorem Opened.await_nothing {id : Nat} (hid : blk.body[k]? = some id) (hi : c.store[id]? = some i)
    (hin : i.inputs = []) (hsame : d.store[id]? = some i) {w : Wait}
    (hw : Runs (awaitAll b blk lastRow k (g.before k)) d w d) :
    w.row = lastRow ∧ ∀ p, w.source = some p → p = -1 := by
  -- an edge inside the block would be a register that it reads
  have hinner : ∀ p ∈ g.before k, p ≠ -1 → False := by
    intro p hp hne
    obtain ⟨reg, j, rfl, hfeeds⟩ := ho.feeds_of_mem hc horder hp hne
    obtain ⟨a, ha, hread⟩ := hfeeds.reader
    rw [hc.bodyOf_getElem? ho.block ho.basic, hid] at ha
    obtain rfl : i = a := Option.mem_unique hi ha
    rw [Instr.reads_iff, hin] at hread
    cases hread
  constructor
  · exact awaitAll_late (fun p hp hne => (hinner p hp hne).elim) hw
  intro p hp
  cases awaitAll_source hw with
  | last hlast =>
    rw [hlast] at hp
    exact (Option.some.inj hp).symm
  | @before id' i' _ hi' hdef =>
    -- no register, so no definition was looked up
    have hid' := hi'.1
    rw [Position.get_natCast, hid] at hid'
    cases hid'
    obtain rfl := Option.mem_unique hsame hi'.2
    rw [hp, hin] at hdef
    obtain ⟨_, _, _, _, _, hwrites, _⟩ := runs_definition hdef
    obtain ⟨reg, hreg, _⟩ := hwrites.writes
    cases hreg
  | inside hmem hne _ => exact (hinner _ hmem hne).elim

variable (hs : Stacked words.size c r d) (hf : FieldsAt c blk k f) (hbranch : f.isBranch = true)
  (hin : f.inputs = [])
include hs hf hbranch hin

theorem Opened.find_atEnd {s : Slot} (h : Runs (find b g lastRow r.row k) d s d) :
    r.row ≤ s.row ∧ s.Free d.table ∧ (c.target.branchAnyLane = false → s.lane = 0) ∧
      ∀ s' : Slot, s'.Free d.table → lastRow < s'.row → r.row ≤ s'.row →
        (c.target.branchAnyLane = false → s'.lane = 0) → s.row ≤ s'.row := by
  have hlow := ho.last
  have htarget : d.target = c.target := by rw [hd.frame, ho.target]
  have hsized : Table.Sized words.size d.target.lanes d.table := by
    rw [htarget]
    exact hs.sized
  have hinside := hsized.row_lt (ho.found hd h).free
  -- the search as it is carried out for a branch
  obtain ⟨w, id, i, f', hw, hi, hdec, hslot⟩ :=
    runs_find (ho.block_eq hd) (ho.edges.entryFirst k) h
  obtain ⟨⟨hid', hi'⟩, hdec'⟩ := ho.branch_kept hc hd horder hf hbranch hi
  obtain rfl := Except.ok.inj (hdec.symm.trans hdec')
  -- what it waits for
  have hwait : w.row = lastRow ∧ ∀ p, w.source = some p → p = -1 := by
    rw [Position.get_natCast] at hid'
    have hinputs : i.inputs = [] := by
      obtain ⟨j, hj, hstands, _⟩ := (hc.holds b blk ho.block ho.basic).instr k id hid'
      obtain rfl := Option.mem_unique hi' hj
      obtain ⟨f₂, hf₂, hins, _⟩ := hstands.operands
      obtain rfl := Except.ok.inj (hdec.symm.trans hf₂)
      rw [hin] at hins
      exact List.map_eq_nil_iff.mp hins
    exact ho.await_nothing hc horder hid' hi' hinputs hi.2 hw
  rw [hbranch, if_pos rfl, hwait.1] at hslot
  obtain ⟨hle, hfree, hbound, hleast⟩ := slotFrom_branch_first hd.tabled hsized.shaped (by omega)
    (fun first _ hle => ho.not_forwarded hc hd horder hs hwait.2 (by omega)) hslot
  rw [htarget] at hbound hleast
  refine ⟨by omega, hfree, hbound, ?_⟩
  intro s' hfree' hafter hbehind hbound'
  exact hleast s' hfree' (by omega) hbound'

/-- A branch that reads no register is placed at the end of its block. -/
theorem Opened.placedAtEnd (hrise : Rising c blk lastRow done r d)
    (h : Runs (placeInstr b blk g lastRow r k) d r' e) :
    ∃ row lane, PlacedAtEnd c e blk lastRow k row lane := by
  have hk := ho.index_lt horder
  obtain ⟨_, x, s₀, s, hput⟩ := ho.inserted hd horder h
  obtain rfl := ho.keeps_slot hc hd hf hbranch hput
  obtain ⟨hbehind, hfree, hbound, hleast⟩ :=
    ho.find_atEnd hc hd horder hs hf hbranch hin hput.found
  have hplace : ∀ k', k' < k → placeIn e blk k' = placeIn d blk k' :=
    fun _ hlt => hput.placeIn_of_ne hlt.ne
  have hopen : OpenAtEnd c d blk lastRow k s.row s.lane := by
    refine ⟨hput.slot.after, ⟨⟨hfree.lane_nonneg, (hs.sized.row_lt hfree).2⟩, hbound⟩, ?_, ?_⟩
    · intro k' row lane hk' hs'
      have hmem := mem_done_of_standsAt ho.ready hd (hk'.trans hk) hs'
      obtain ⟨row', lane', hs'', _, hle⟩ := standsAt_of_placed hd hmem
      rw [(hs'.unique hs'').1]
      omega
    · rintro k' hk' ⟨pl, hpl, htime, hlane⟩
      obtain ⟨id, _, hslot⟩ := hd.tabled.placed_slot hpl hlane
      rw [htime, show Table.entry d.table s.row s.lane = some none from hfree] at hslot
      cases hslot
  refine ⟨s.row, s.lane, ho.stands hd horder hput, hopen.congr hplace, ?_⟩
  intro row' lane' hopen'
  have hopen' := hopen'.congr fun k' hk' => (hplace k' hk').symm
  by_contra hlt
  have hafter := hopen'.after
  have hfree' := ho.free_of_untaken hd horder hs.sized.shaped hafter hopen'.allowed.1 hopen'.free
    hfree (by omega)
  -- some instruction that was placed before stands in the last row in use
  have hlate : r.row ≤ row' := by
    by_cases hnil : done = []
    · have := hrise.start hnil
      omega
    · obtain ⟨k', lane, hmem, hs'⟩ := hrise.last hnil
      have hlt' := ((ho.places.mem_done horder).mp hmem).2
      exact hopen'.behind k' r.row lane (by omega) hs'
  exact hlt (hleast { lane := lane', row := row' } hfree' hafter hlate hopen'.allowed.2)

end

/-! ## The end of a block -/

/-- The branch of a block that reads no register was placed at the end of the block. -/
def EndsInBranch (c d : Compilation) (blk : Block) : Prop :=
  ∃ top, (∀ k row lane, k < blk.body.size → StandsAt d blk k row lane → top < row) ∧
    ∀ (m : Nat) (f : Fields), FieldsAt c blk m f → f.isBranch = true → f.inputs = [] →
      ∃ row lane, PlacedAtEnd c d blk top m row lane

theorem EndsInBranch.congr (h : EndsInBranch c d blk)
    (hsame : ∀ k, k < blk.body.size → placeIn e blk k = placeIn d blk k) :
    EndsInBranch c e blk := by
  obtain ⟨top, hbehind, hend⟩ := h
  refine ⟨top, ?_, ?_⟩
  · intro k row lane hk hs
    exact hbehind k row lane hk ((standsAt_congr (hsame k hk)).mp hs)
  · intro m f hf hbranch hin
    obtain ⟨row, lane, hplaced⟩ := hend m f hf hbranch hin
    have hm := hf.index_lt
    exact ⟨row, lane, hplaced.congr fun k hk => hsame k (by omega)⟩

theorem Opened.endsInBranch (hc : Laid Q words c) (ho : Opened c c₀ b blk g r.row order)
    (hs : Stacked words.size c r c₀)
    (h : Runs (order.foldlM (placeInstr b blk g r.row) r) c₀ r' e) : EndsInBranch c e blk := by
  obtain ⟨hpartly, _⟩ := ho.rising hc hs (List.prefix_refl _) h
  refine ⟨r.row, ?_, ?_⟩
  · intro k row lane hk hs'
    exact (rows_of_standsAt ho.ready hpartly hk hs').1
  · intro m f hf hbranch hin
    obtain ⟨_, _, _, _, _, _, hm⟩ := ho.reached hc hs h
      (ho.lists.mpr ⟨f, hf, Fields.not_isNop_of_isBranch hbranch⟩)
    obtain ⟨row, lane, hplaced⟩ :=
      ho.placedAtEnd hc hm.partly hm.split hm.stacked hf hbranch hin hm.rising hm.run
    exact ⟨row, lane, hplaced.congr fun _ => hm.place⟩

/-! ## Words that keep their registers -/

/-- Nothing behind instruction `k` of a block needs what it wrote to a register. -/
structure Unneeded (c : Compilation) (blk : Block) (k : Nat) (reg : Int) : Prop where
  unread : ∀ i t, k < i → ¬ ReadsAt c blk i t reg
  dead : blk.liveOut.has reg = false

theorem Unneeded.nextUse (h : Unneeded c blk k reg) (hnext : NextUses c blk)
    (hlast : ∀ i, k < i → ¬ WritesAt c blk i reg) {a : Instr} {o : Operand}
    (ha : (c.bodyOf blk)[k]? = some a) (ho : a.output = some o) (hreg : o.register = reg) :
    o.nextUse = none := by
  subst hreg
  apply hnext.output_none ha ho
  · intro x hx
    obtain ⟨i, hi⟩ := List.mem_iff_getElem?.mp hx
    rw [List.getElem?_drop] at hi
    constructor
    · by_contra hread
      rw [Bool.not_eq_false, Instr.reads_iff] at hread
      obtain ⟨o', ho', heq⟩ := List.mem_map.mp hread
      obtain ⟨t, ht⟩ := List.mem_iff_getElem?.mp ho'
      exact h.unread (k + 1 + i) t (by omega) ⟨x, o', hi, ht, heq⟩
    · by_contra hwrite
      rw [Bool.not_eq_false] at hwrite
      exact hlast (k + 1 + i) (by omega) ⟨x, hi, hwrite⟩
  · exact lookup_eq_none_of_not_any (Bool.not_eq_true _ ▸ h.dead)

/-! ## A whole compilation -/

/-- Instruction `k` of a block is the last one before a call, number `m`, that writes
    register `reg`, and the helper takes an argument from it. -/
structure SetsArgument (c : Compilation) (blk : Block) (m k : Nat) (reg : Int) : Prop where
  call : ∃ f, FieldsAt c blk m f ∧ f.isCall = true ∧ reg ∈ Opcode.helperArguments f.immediate
  before : k < m
  writes : WritesAt c blk k reg
  last : ∀ i, k < i → i < m → ¬ WritesAt c blk i reg

theorem SetsArgument.last_write (h : SetsArgument c blk m k reg) (hc : Laid Q words c)
    (hb : c.blocks[b]? = some blk) (hkind : blk.kind = .basic) {i : Nat} (hi : k < i) :
    ¬ WritesAt c blk i reg := by
  intro hw
  obtain ⟨f, hf, hcall, _⟩ := h.call
  have hbranch := (isBranch_iff f).mpr (.inr (.inl hcall))
  have hm := hf.index_lt
  have hend := hc.branchLast hb hkind m f (by omega) (by omega) hf hbranch
  obtain ⟨a, ha, hwrites⟩ := hw
  have hlt := (List.getElem?_eq_some_iff.mp ha).1
  rw [hc.bodyOf_length hb hkind] at hlt
  by_cases heq : i = m
  · subst heq
    obtain ⟨f', hf', _, hout⟩ := WritesAt.fields hc hb hkind ⟨a, ha, hwrites⟩
    rw [hf'.unique hf, Fields.output?_of_isBranch hbranch] at hout
    cases hout
  · exact h.last i hi (by omega) ⟨a, ha, hwrites⟩

section
variable {target : Target} {options : Options} {words : Array Word} {texts : Array String}
  (hwords : NoJumpBefore words) {c e : Compilation}
  (hprep : Runs Optimize.prepare (start target options words texts) () c)
  (hrun : Runs Optimize.run (start target options words texts) () e) {b : Nat} {blk : Block}
  (hb : c.blocks[b]? = some blk) (hkind : blk.kind = .basic)
include hwords hprep hrun hb hkind

theorem endsInBranch_of_run : AllPlaced c e ∧ EndsInBranch c e blk := by
  obtain ⟨c', d₀, d, parsed, order, r, hprep', hready, hplace, hd₀, hlists, hd, hrows⟩ :=
    Optimize.runs_run hwords hrun
  obtain ⟨_, rfl⟩ := hprep.unique hprep'
  have hc := hready.laid
  have ht := hready.sized
  rw [← hready.size] at ht
  have hend : EndsInBranch c d₀ blk := forall_entered_of_placeAll hc hready.unplaced ht
    (fun _ _ _ _ _ _ _ _ hin hr => hin.opened.endsInBranch hc hin.stacked hr)
    (fun _ _ _ _ hsame _ _ h => h.congr hsame) hplace hb hkind
  refine ⟨allPlaced_of_retargeted hc hlists hd hrows.retargeted, hend.congr ?_⟩
  intro k _
  unfold placeIn
  rw [hrows.retargeted.rest, hd₀]

theorem wordWrites_of_run (hw : WritesAt c blk k reg) (hlast : ∀ i, k < i → ¬ WritesAt c blk i reg)
    (hcase : InPlace (c.bodyOf blk) ∨ Unneeded c blk k reg) : WordWrites e blk k reg := by
  obtain ⟨_, ⟨g, top, r, x, hover⟩, hplain⟩ := overwrites_of_run hwords hprep hrun hb hkind
  obtain ⟨_, hready⟩ := placeable_of_prepare hwords hprep
  have hc := hready.laid
  rcases hcase with hin | hunneeded
  · -- what is overwritten in place only is not renamed at all
    exact (hplain hin).writes hc hb hkind hw
  -- elsewhere a value is renamed only if it is used later
  refine (hover.moved k reg hw).mpr ?_
  rintro ⟨s, i, v, new, hv, _⟩
  obtain ⟨id, hi⟩ := hv.instr
  obtain ⟨o, ho, hneeded, _⟩ := hv.needed
  obtain ⟨f, hf, hnop, _⟩ := hw.fields hc hb hkind
  obtain ⟨a, ⟨_, ha⟩, hout⟩ := hover.parsed k id i ⟨f, hf, hnop⟩ hi
  obtain ⟨a', ha', hwrites⟩ := hw
  have hbody := ha'
  rw [hc.bodyOf_getElem? hb hkind, Position.get_natCast.mp hi.1] at hbody
  obtain rfl := Option.mem_unique ha hbody
  obtain ⟨o', ho', hreg⟩ := Instr.writes_iff.mp hwrites
  rw [hout] at ho
  obtain rfl := Option.mem_unique ho ho'
  rw [hunneeded.nextUse (hready.nextUses b blk hb hkind) hlast ha' ho hreg] at hneeded
  cases hneeded

/-- Arguments of helper calls. The call stands behind the instruction that sets an argument,
    or in the same row: behind it exactly if some other instruction before the call stands
    behind it as well, or no lane that a branch may take is left in its row. It still sets
    the argument if its value is not needed otherwise, or if the block overwrites registers
    in place only. -/
theorem call_arguments_ready_iff {m k : Nat} {reg : Int} (hset : SetsArgument c blk m k reg) :
    ∃ row lane row' lane', StandsAt e blk k row lane ∧ StandsAt e blk m row' lane' ∧
      row ≤ row' ∧
      (row < row' ↔ (∃ i ri li, i < m ∧ StandsAt e blk i ri li ∧ row < ri) ∨
        ∀ l, BranchLane c.target l → ∃ i, i < m ∧ StandsAt e blk i row l) ∧
      (InPlace (c.bodyOf blk) ∨ Unneeded c blk k reg → WordWrites e blk k reg) := by
  obtain ⟨hall, top, hbehind, hend⟩ := endsInBranch_of_run hwords hprep hrun hb hkind
  obtain ⟨parsed, hready⟩ := placeable_of_prepare hwords hprep
  have hc := hready.laid
  obtain ⟨f, hf, hcall, _⟩ := hset.call
  have hbranch := (isBranch_iff f).mpr (Or.inr (Or.inl hcall))
  obtain ⟨row', lane', hplaced⟩ :=
    hend m f hf hbranch (Fields.inputs_of_isCall hcall)
  have hk : k < blk.body.size := hset.before.trans hf.index_lt
  obtain ⟨fk, hfk, hnop, _⟩ := hset.writes.fields hc hb hkind
  obtain ⟨row, lane, hstands⟩ := (hall.finished b blk hb hkind).placed k hk ⟨fk, hfk, hnop⟩
  refine ⟨row, lane, row', lane', hstands, hplaced.stands,
    hplaced.isOpen.behind k row lane hset.before hstands,
    hplaced.lt_iff hset.before hstands (hbehind k row lane hk hstands), ?_⟩
  intro hcase
  exact wordWrites_of_run hwords hprep hrun hb hkind hset.writes
    (fun i hi => hset.last_write hc hb hkind hi) hcase

end

/-- A call of a helper that takes two arguments, the second one copied from the first. -/
def copiedArgument : Array Word :=
  #[0xb701000001000000, 0xbf12000000000000, 0x8500000017000000, 0x9500000000000000]

/-- The first argument is set in time. The copy is made in the row of the call. -/
theorem call_arguments_ready_iff_copiedArgument :
    ∃ (c e : Compilation) (blk : Block),
      Runs Optimize.prepare (quietStart copiedArgument) () c ∧
      Runs Optimize.run (quietStart copiedArgument) () e ∧ c.blocks[1]? = some blk ∧
      blk.kind = .basic ∧ InPlace (c.bodyOf blk) ∧
      SetsArgument c blk 2 0 1 ∧ WordWrites e blk 0 1 ∧ StandsBefore e blk 0 2 ∧
      SetsArgument c blk 2 1 2 ∧ WordWrites e blk 1 2 ∧ ¬ StandsBefore e blk 1 2 := by
  obtain ⟨c, e, hc, he, htarget, blk, hblk, hkind, hin, hcall, hw₀, hother, hw₁, hs₀, hs₁⟩ :=
    exists_compiled (s := quietStart copiedArgument) (P := fun c e => c.target = {} ∧
      ∃ blk, blk ∈ c.blocks[1]? ∧ blk.kind = .basic ∧ InPlace (c.bodyOf blk) ∧
      FieldsAt c blk 2 { opcode := 0x85, dst := 0, src := 0, offset := 0, immediate := 23 } ∧
      WritesAt c blk 0 1 ∧ ¬ WritesAt c blk 1 1 ∧ WritesAt c blk 1 2 ∧
      StandsAt e blk 0 0 0 ∧ StandsAt e blk 1 1 0)
      (by decide +kernel) (by decide +kernel) (by decide +kernel)
  have hset₀ : SetsArgument c blk 2 0 1 := by
    refine ⟨⟨_, hcall, by decide, by decide⟩, by decide, hw₀, ?_⟩
    intro i hlow hhigh
    obtain rfl : i = 1 := by omega
    exact hother
  have hset₁ : SetsArgument c blk 2 1 2 :=
    ⟨⟨_, hcall, by decide, by decide⟩, by decide, hw₁, by omega⟩
  obtain ⟨row₀, lane₀, _, _, hstands₀, hcall₀, _, hiff₀, hword₀⟩ :=
    call_arguments_ready_iff (by decide +kernel) hc he hblk hkind hset₀
  obtain ⟨row₁, lane₁, _, _, hstands₁, hcall₁, _, hiff₁, hword₁⟩ :=
    call_arguments_ready_iff (by decide +kernel) hc he hblk hkind hset₁
  obtain ⟨rfl, rfl⟩ := hstands₀.unique hs₀
  obtain ⟨rfl, rfl⟩ := hstands₁.unique hs₁
  refine ⟨c, e, blk, hc, he, hblk, hkind, hin, hset₀, hword₀ (Or.inl hin), ?_, hset₁,
    hword₁ (Or.inl hin), ?_⟩
  · intro ri li rj lj hsi hsj
    obtain ⟨rfl, rfl⟩ := hsi.unique hs₀
    obtain ⟨rfl, rfl⟩ := hsj.unique hcall₀
    exact hiff₀.mpr (Or.inl ⟨1, 1, 0, by decide, hs₁, by decide⟩)
  · intro hbefore
    have hrows : ∀ i ri li, i < 2 → StandsAt e blk i ri li → ri ≤ 1 ∧ li = 0 := by
      intro i ri li hi hs
      obtain rfl | rfl : i = 0 ∨ i = 1 := by omega
      · have := hs.unique hs₀
        omega
      · have := hs.unique hs₁
        omega
    rcases hiff₁.mp (hbefore _ _ _ _ hs₁ hcall₁) with ⟨i, ri, li, hi, hsi, hlt⟩ | hfull
    · have := hrows i ri li hi hsi
      omega
    · -- the second lane of that row is free
      obtain ⟨i, hi, hsi⟩ := hfull 1 (by rw [htarget]; decide)
      have := hrows i 1 1 hi hsi
      omega

end Schedule
end BpfLanes
