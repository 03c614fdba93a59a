import BpfLanes.Proofs.JumpRows
import BpfLanes.Proofs.RowSpans
import Mathlib.Data.Int.LeastGreatest

/-! # Where control falls through

Behind a block that ends neither in an exit nor in an unconditional jump, control goes
on in the next row. Blocks are placed in the order of the flow graph, and no jump is
put between them. So the block that follows in the program always comes later, but it
comes next only if the order has no block with something to do between the two. If
all jumps of a program lead forward, the order is that of the program, and control
falls through to where it should.
-/

namespace BpfLanes

open Compilation BpfLanes.Flow

variable {a b row : Int}

variable {order : List Int}

/-! ## Earlier and later in an order -/

theorem rel_of_idxOf_lt {R : Int → Int → Prop} (h : order.Pairwise R) (hb : b ∈ order)
    (hlt : order.idxOf a < order.idxOf b) : R a b := by
  have hlast : order.idxOf b < order.length := List.idxOf_lt_length_of_mem hb
  have hrel := List.pairwise_iff_getElem.mp h _ _ (hlt.trans hlast) hlast hlt
  simpa using hrel

theorem pairwise_idxOf_lt (h : order.Nodup) :
    order.Pairwise fun a b => order.idxOf a < order.idxOf b := by
  refine List.pairwise_iff_getElem.mpr fun i j hi hj hlt => ?_
  rwa [h.idxOf_getElem, h.idxOf_getElem]

theorem idxOf_lt_of_sublist {all : List Int} (hsub : order.Sublist all) (hnd : all.Nodup)
    (ha : a ∈ order) (hlt : all.idxOf a < all.idxOf b) : order.idxOf a < order.idxOf b := by
  by_contra hle
  have hother : order.idxOf a ≠ order.idxOf b := by
    intro heq
    rw [(List.idxOf_inj ha).mp heq] at hlt
    omega
  have hback := rel_of_idxOf_lt ((pairwise_idxOf_lt hnd).sublist hsub) ha
    (show order.idxOf b < order.idxOf a by omega)
  omega

theorem Digraph.Forward.idxOf_lt {edges : List (Int × Int)} (h : Digraph.Forward edges order)
    (ha : a ∈ order) (hedge : (a, b) ∈ edges) (hne : a ≠ b) : order.idxOf a < order.idxOf b := by
  by_contra hle
  have hother : order.idxOf a ≠ order.idxOf b := fun heq => hne ((List.idxOf_inj ha).mp heq)
  exact rel_of_idxOf_lt h ha (show order.idxOf b < order.idxOf a by omega) hedge

/-! ## Edges of the flow graph -/

namespace Flow

/-- No jump of a program leads back. -/
def JumpsForward (words : Array Word) : Prop :=
  ∀ (p : Nat) (f : Fields), WordAt words p f → f.isJump = true → 0 ≤ f.offset

theorem JumpsForward.of_jumpsFrom {source words : Array Word} (h : JumpsFrom source words)
    (hs : JumpsForward source) : JumpsForward words := by
  intro p f hw hj
  obtain ⟨w, hw, hf⟩ := hw
  exact hs p f ⟨w, h p w f hw hf hj, hf⟩ hj

variable {words : Array Word} {c : Compilation} {b b' p : Nat} {blk blk' : Block} {f : Fields}

theorem CutWell.number_lt (h : CutWell words c.blocks) (hb : c.blocks[b]? = some blk)
    (hb' : c.blocks[b']? = some blk') (hkind : blk.kind = .basic) (hkind' : blk'.kind = .basic)
    (hlt : blk.start < blk'.start) : b < b' := by
  rcases Nat.lt_trichotomy b b' with hnum | rfl | hnum
  · exact hnum
  · obtain rfl := Option.mem_unique hb hb'
    omega
  · have hstop := h.disjoint hb' hb hkind' hkind hnum
    have hspan := h.span b' blk' hb' hkind'
    omega

theorem linksOf_cases {count : Nat} {t x : Int}
    (h : x ∈ (linksOf count b f t).1 ∨ (linksOf count b f t).2 = some x) :
    x = (b : Int) + 1 ∨ f.isJump = true ∧ x = t ∨ x = (count : Int) - 1 := by
  unfold linksOf at h
  split at h
  · left
    simpa using h
  split at h
  · next hj =>
    -- a jump leads to its target, and on if it is conditional
    rcases h with h | h
    · right
      left
      exact ⟨hj, by simpa using h⟩
    · left
      split at h
      · cases h
      · exact (Option.some.inj h).symm
  split at h
  · -- an exit leads to the last block
    right
    right
    simpa using h
  · left
    rcases h with h | h
    · cases h
    · exact (Option.some.inj h).symm

/-- If all jumps lead forward, edges lead to greater numbers. -/
theorem Charted.edge_lt (h : Charted words c) (hforward : JumpsForward words) {e : Int × Int}
    (he : e ∈ (graphOf c.blocks.toList).edges) : e.1 < e.2 := by
  obtain ⟨a, x⟩ := e
  obtain ⟨b, blk, hblk, rfl, hx⟩ := mem_edges_graphOf.mp he
  rw [Array.getElem?_toList] at hblk
  have hlt := lt_size hblk
  show (b : Int) < x
  by_cases hfirst : b = 0
  · -- from the entry to the first block
    subst hfirst
    obtain rfl := Option.mem_unique h.entry hblk
    rcases hx with hx | hx
    · cases hx
    · cases hx
      decide
  by_cases hlast : b + 1 = c.blocks.size
  · -- nothing leaves the exit
    obtain rfl : b = c.blocks.size - 1 := by omega
    obtain rfl := Option.mem_unique h.exit hblk
    rcases hx with hx | hx
    · cases hx
    · cases hx
  have hlinked := h.analysed.linked b blk hblk
  rcases h.between b blk (by omega) (by omega) hblk with hkind | hkind
  · obtain ⟨id, i, f, t, hid, hi, hf, hjump, hlinks⟩ := hlinked.basic hkind
    have hcut := h.analysed.laid.cut
    have hspan := hcut.span b blk hblk hkind
    have hstop : ((blk.stop - 1).toNat : Int) + 1 = blk.stop := by omega
    rw [Prod.mk.injEq] at hlinks
    rw [hlinks.1, hlinks.2] at hx
    rcases linksOf_cases hx with rfl | ⟨hj, rfl⟩ | rfl
    · omega
    · -- a jump leads behind the end of its block
      obtain ⟨t₀, tblk, rfl, ht, htkind, htstart⟩ :=
        h.analysed.target_block hblk hkind hstop hid hi hf hj (hjump hj)
      have hoffset := hforward _ f (h.analysed.last_word hblk hkind hstop hid hi hf) hj
      have := hcut.number_lt hblk ht hkind htkind (by omega)
      omega
    · omega
  · obtain ⟨htaken, hfall⟩ := hlinked.call hkind
    rw [htaken, hfall] at hx
    rcases hx with hx | hx
    · cases hx
    · cases hx
      omega

section
variable (hb : c.blocks[b]? = some blk) (hb' : c.blocks[b']? = some blk')
  (hkind : blk.kind = .basic) (hkind' : blk'.kind = .basic)
include hb hb' hkind hkind'

theorem Analysed.leadsTo_next (h : Analysed words c) (hnext : blk'.start = blk.stop)
    (hp : (p : Int) + 1 = blk.stop) (hw : WordAt words p f) (hexit : f.isExit = false)
    (hgoto : f.isGoto = false) :
    LeadsTo c (graphOf c.blocks.toList) b b' := by
  have hspan' := h.laid.cut.span b' blk' hb' hkind'
  have hpass : Passes words p (p + 1) := .next hw hexit hgoto (by omega)
  obtain ⟨t, hbegins, hleads⟩ := (h.leads_iff_passes hb hkind hp).mpr hpass
  obtain ⟨tblk, ht, htkind, htstart⟩ := h.beginsAt_iff.mp hbegins
  -- only one block starts there
  have heq : t = b' := by
    rcases Nat.lt_trichotomy t b' with hlt | heq | hlt
    · have := h.laid.cut.disjoint ht hb' htkind hkind' hlt
      have := h.laid.cut.span t tblk ht htkind
      omega
    · exact heq
    · have := h.laid.cut.disjoint hb' ht hkind' htkind hlt
      omega
  rwa [← heq]

theorem LeadsTo.idxOf_lt {g : Digraph} (h : LeadsTo c g b b')
    (hforward : Digraph.Forward g.edges order) (hmem : ∀ e ∈ g.edges, e.1 ∈ order) (hne : b ≠ b') :
    order.idxOf (b : Int) < order.idxOf (b' : Int) := by
  rcases h with hedge | ⟨k, helper, hk, hcall, hto, hfrom⟩
  · exact hforward.idxOf_lt (hmem _ hedge) hedge (by omega)
  -- the block of a helper stands between, which is neither of the two
  have hother : ∀ (n : Nat) (x : Block), c.blocks[n]? = some x → x.kind = .basic → n ≠ k := by
    intro n x hn hbasic heq
    subst heq
    obtain rfl := Option.mem_unique hn hk
    rw [hbasic] at hcall
    cases hcall
  have hone := hother b blk hb hkind
  have htwo := hother b' blk' hb' hkind'
  have hlt := hforward.idxOf_lt (hmem _ hto) hto (by omega)
  have hlt' := hforward.idxOf_lt (hmem _ hfrom) hfrom (by omega)
  exact hlt.trans hlt'

end

end Flow

namespace Schedule

/-- Control can go on behind the last instruction of a block. -/
def FallsThrough (c : Compilation) (blk : Block) : Prop :=
  ∃ (k : Nat) (f : Fields), k + 1 = blk.body.size ∧ FieldsAt c blk k f ∧ f.isExit = false ∧
    f.isGoto = false

variable {Q : Instr → Prop} {words : Array Word} {fresh marked c d : Compilation} {b b' : Nat}
  {blk blk' : Block} {spans : List Span} {r : Reach} {stop : Int} {s s' : Span}

theorem FallsThrough.word {Q : Instr → Prop} (hc : Laid Q words c) (hb : c.blocks[b]? = some blk)
    (hkind : blk.kind = .basic) (h : FallsThrough c blk) :
    ∃ (p : Nat) (f : Fields), (p : Int) + 1 = blk.stop ∧ WordAt words p f ∧ f.isExit = false ∧
      f.isGoto = false := by
  obtain ⟨k, f, hk, ⟨id, i, ⟨hid, hi⟩, hf⟩, hexit, hgoto⟩ := h
  obtain ⟨id', i', -, hid', hi', hstands, -⟩ :=
    hc.standsFor_index hb hkind (show k < blk.body.size by omega)
  rw [Position.get_natCast, hid'] at hid
  cases hid
  obtain rfl := Option.mem_unique hi' hi
  have hspan := hc.cut.span b blk hb hkind
  have hsize := (hc.holds b blk hb hkind).size
  refine ⟨blk.start.toNat + k, f, ?_, ⟨_, hstands.word, hf⟩, hexit, hgoto⟩
  unfold Block.stop at hspan ⊢
  omega

theorem order_of_fallsThrough (h : Optimize.Prepared words fresh marked c)
    (horder : Runs blockOrder c order c) (hlists : ListsBlocks c order)
    (hb : c.blocks[b]? = some blk) (hb' : c.blocks[b']? = some blk') (hkind : blk.kind = .basic)
    (hkind' : blk'.kind = .basic) (hnext : blk'.start = blk.stop) (hfall : FallsThrough c blk) :
    order.idxOf (b : Int) < order.idxOf (b' : Int) := by
  obtain ⟨p, f, hp, hw, hexit, hgoto⟩ := hfall.word h.blocks hb hkind
  have hchart := (h.charted (h.hasLeader hb hkind)).analysed
  obtain ⟨g, all, hg, hall, hsub⟩ := runs_blockOrder horder
  rw [h.flow, hchart.flow] at hg
  cases hg
  -- the edges were found when the program was cut
  obtain ⟨old, hold, hk, hs, hl⟩ := block_of_outlines h.outlines.symm hb
  obtain ⟨old', hold', hk', hs', -⟩ := block_of_outlines h.outlines.symm hb'
  have hstop : old.stop = blk.stop := by
    unfold Block.stop
    rw [hs, hl]
  have hleads := hchart.leadsTo_next hold hold' (hk.trans hkind) (hk'.trans hkind')
    (by rw [hs', hstop]; exact hnext) (by rw [hstop]; exact hp) hw hexit hgoto
  obtain ⟨hperm, hforward⟩ := Digraph.smallestFirst_spec Digraph.nodup_nodes_ofLists hall
  have hmem : ∀ e ∈ (graphOf fresh.blocks.toList).edges, e.1 ∈ all := fun e he =>
    hperm.mem_iff.mpr (Digraph.simple_ofLists.ends e he).1
  have hne : b ≠ b' := by
    intro heq
    subst heq
    obtain rfl := Option.mem_unique hb hb'
    have hspan := h.blocks.cut.span b blk hb hkind
    omega
  exact idxOf_lt_of_sublist hsub (hperm.nodup_iff.mpr Digraph.nodup_nodes_ofLists)
    (hlists.all b blk hb hkind)
    (hleads.idxOf_lt hold hold' (hk.trans hkind) (hk'.trans hkind') hforward hmem hne)

theorem order_ascends (h : Optimize.Prepared words fresh marked c) (hlead : HasLeader words)
    (hforward : JumpsForward words) (horder : Runs blockOrder c order c) :
    order.Pairwise (· < ·) := by
  have hchart := h.charted hlead
  obtain ⟨g, all, hg, hall, hsub⟩ := runs_blockOrder horder
  rw [h.flow, hchart.analysed.flow] at hg
  cases hg
  exact (Digraph.smallestFirst_of_ascending Digraph.simple_ofLists
    (fun e he => hchart.edge_lt hforward he) hall).sublist hsub

/-! ## Rows next to each other -/

/-- The greatest row that holds an instruction of a block. -/
def IsLastRow (e : Compilation) (blk : Block) (row : Int) : Prop :=
  Jumps.RowHolds e blk row ∧ ∀ row', Jumps.RowHolds e blk row' → row' ≤ row

/-- The rows of a block are followed by those of another one, and rows between the two
    are empty. -/
def Adjoins (e : Compilation) (blk blk' : Block) : Prop :=
  ∃ last first, IsLastRow e blk last ∧ Jumps.IsFirstRow e blk' first ∧ last < first ∧
    ∀ row lane id, last < row → row < first → Table.entry e.table row lane ≠ some (some id)

theorem Progress.rowHolds_iff (hd : Progress c order r d) (hb : c.blocks[b]? = some blk)
    (hkind : blk.kind = .basic) :
    Jumps.RowHolds d blk row ↔ ∃ k lane, k < blk.body.size ∧ StandsAt d blk k row lane := by
  have hdb : d.blocks[b]? = some blk := by
    rwa [hd.frame.blocks]
  constructor
  · rintro ⟨lane, id, hslot, hid⟩
    obtain ⟨k, hk⟩ := Array.mem_iff_getElem?.mp hid
    obtain ⟨q, pl, hq, hpl, htime, hlane⟩ := (hd.tabled.slot row lane id).mp hslot
    obtain rfl := hd.tabled.position_unique hq ⟨b, blk, k, hdb, hkind, hk, rfl⟩
    exact ⟨k, lane, lt_size hk, pl, hpl, htime, hlane⟩
  · rintro ⟨k, lane, hk, pl, hpl, htime, hlane⟩
    refine ⟨lane, blk.body[k], ?_, Array.getElem_mem hk⟩
    exact (hd.tabled.slot row lane _).mpr
      ⟨_, pl, ⟨b, blk, k, hdb, hkind, Array.getElem?_eq_getElem hk, rfl⟩, hpl, htime, hlane⟩

theorem Layout.order_iff (hl : Layout c order spans stop d) (horder : order.Nodup) (hs : s ∈ spans)
    (hs' : s' ∈ spans) :
    order.idxOf s.block < order.idxOf s'.block ↔ s.last < s'.first := by
  have hidx : spans.Pairwise fun s s' => order.idxOf s.block < order.idxOf s'.block := by
    have hpair := pairwise_idxOf_lt horder
    rwa [← hl.blocks, List.pairwise_map, hl.blocks] at hpair
  have hrows := hl.abut.pairwise
  have hin := hl.abut.inside hs
  have hin' := hl.abut.inside hs'
  obtain ⟨i, hi, rfl⟩ := List.getElem_of_mem hs
  obtain ⟨j, hj, rfl⟩ := List.getElem_of_mem hs'
  rcases Nat.lt_trichotomy i j with hlt | rfl | hlt
  · exact iff_of_true (List.pairwise_iff_getElem.mp hidx i j hi hj hlt)
      (List.pairwise_iff_getElem.mp hrows i j hi hj hlt)
  · omega
  · have := List.pairwise_iff_getElem.mp hidx j i hj hi hlt
    have := List.pairwise_iff_getElem.mp hrows j i hj hi hlt
    omega

section
variable (hl : Layout c order spans stop d) (horder : ListsBlocks c order)
  (hd : Progress c order r d) (hs : s ∈ spans) (hsb : s.block = b) (hb : c.blocks[b]? = some blk)
  (hkind : blk.kind = .basic)
include hl hd hs hsb hb hkind

theorem Layout.row_inside (hrow : Jumps.RowHolds d blk row) : s.first ≤ row ∧ row ≤ s.last := by
  obtain ⟨k, lane, hk, hstands⟩ := (hd.rowHolds_iff hb hkind).mp hrow
  exact (hl.fills s hs b blk hsb hb).inside k row lane hk hstands

theorem Layout.isLastRow (hact : ∃ k, Active c blk k) : IsLastRow d blk s.last := by
  obtain ⟨k, lane, hk, hstands⟩ := (hl.fills s hs b blk hsb hb).ends hact
  refine ⟨(hd.rowHolds_iff hb hkind).mpr ⟨k, lane, hk, hstands⟩, fun row hrow => ?_⟩
  exact (hl.row_inside hd hs hsb hb hkind hrow).2

theorem Layout.exists_isFirstRow (hact : ∃ k, Active c blk k) :
    ∃ first, Jumps.IsFirstRow d blk first ∧ s.first ≤ first := by
  have hlast := hl.isLastRow hd hs hsb hb hkind hact
  obtain ⟨first, hrow, hleast⟩ := Int.exists_least_of_bdd
    ⟨s.first, fun row hrow => (hl.row_inside hd hs hsb hb hkind hrow).1⟩ ⟨s.last, hlast.1⟩
  exact ⟨first, ⟨hrow, hleast⟩, (hl.row_inside hd hs hsb hb hkind hrow).1⟩

end

/-- Of two blocks that both do something, the second one comes next exactly if no block
    between them does anything. -/
theorem Layout.adjoins_iff (hl : Layout c order spans stop d) (horder : ListsBlocks c order)
    (hd : Progress c order r d) (hs : s ∈ spans) (hs' : s' ∈ spans) (hsb : s.block = b)
    (hsb' : s'.block = b') (hb : c.blocks[b]? = some blk) (hb' : c.blocks[b']? = some blk')
    (hkind : blk.kind = .basic) (hkind' : blk'.kind = .basic) (hact : ∃ k, Active c blk k)
    (hact' : ∃ k, Active c blk' k) (hlt : s.last < s'.first) :
    Adjoins d blk blk' ↔ ∀ m ∈ spans, s.last < m.first → m.last < s'.first →
      ∀ (n : Nat) (mid : Block), m.block = n → c.blocks[n]? = some mid → mid.kind = .basic →
        ¬ ∃ k, Active c mid k := by
  have hlast := hl.isLastRow hd hs hsb hb hkind hact
  constructor
  · intro hadj m hm hlow hhigh n mid hmn hmid hmkind hmact
    obtain ⟨last, first, hend, hbegin, -, hnone⟩ := hadj
    have hle := (hl.row_inside hd hs hsb hb hkind hend.1).2
    have hge := (hl.row_inside hd hs' hsb' hb' hkind' hbegin.1).1
    have hin := hl.abut.inside hm
    obtain ⟨lane, id, hslot, -⟩ := (hl.isLastRow hd hm hmn hmid hmkind hmact).1
    exact hnone m.last lane id (by omega) (by omega) hslot
  · intro hidle
    obtain ⟨first, hfirst, hge⟩ := hl.exists_isFirstRow hd hs' hsb' hb' hkind' hact'
    refine ⟨s.last, first, hlast, hfirst, by omega, ?_⟩
    intro row lane id hlow hhigh hslot
    -- the slot belongs to one of the blocks between
    obtain ⟨m, hm, hmlow, hmhigh, n, mid, k, hmn, hmid, hmkind, hk, hmact, hstands⟩ :=
      hl.home horder hd hslot
    have hrow : Jumps.RowHolds d mid row :=
      (hd.rowHolds_iff hmid hmkind).mpr ⟨k, lane, lt_size hk, hstands⟩
    have hafter : s.last < m.first := by
      by_contra hle
      have hin := hl.abut.inside hs
      obtain rfl := hl.abut.unique hs hm (x := s.last) ⟨by omega, le_refl _⟩ ⟨by omega, by omega⟩
      omega
    have hbefore : m.last < s'.first := by
      by_contra hle
      have hin' := hl.row_inside hd hs' hsb' hb' hkind' hfirst.1
      obtain rfl := hl.abut.unique hm hs' (x := max m.first s'.first) (by omega) (by omega)
      -- no row of the second block comes before its first one
      obtain rfl : n = b' := by omega
      obtain rfl := Option.mem_unique hmid hb'
      have := hfirst.2 row hrow
      omega
    exact hidle m hm hafter hbefore n mid hmn hmid hmkind ⟨k, hmact⟩

theorem adjoins_of_table {e : Compilation} (h : e.table = d.table) :
    Adjoins e blk blk' ↔ Adjoins d blk blk' := by
  unfold Adjoins IsLastRow Jumps.IsFirstRow Jumps.RowHolds
  rw [h]

theorem Layout.span_of_block (hl : Layout c order spans stop d) (horder : ListsBlocks c order)
    (hb : c.blocks[b]? = some blk) (hkind : blk.kind = .basic) : ∃ s ∈ spans, s.block = b := by
  have hmem := horder.all b blk hb hkind
  rw [← hl.blocks] at hmem
  exact List.mem_map.mp hmem

/-- Where control falls through from a block to the next one of the program, all rows of
    the next block come later. They come right behind exactly if no block that is placed
    between the two does anything, and so they do if all jumps lead forward. -/
theorem falls_through_to_next_row_iff {target : Target} {options : Options} {words : Array Word}
    {texts : Array String} (hwords : NoJumpBefore words) {e : Compilation}
    (hrun : Runs Optimize.run (start target options words texts) () e) :
    ∃ (c : Compilation) (order : List Int),
      Runs Optimize.prepare (start target options words texts) () c ∧ Runs blockOrder c order c ∧
      ∀ (b b' : Nat) (blk blk' : Block), c.blocks[b]? = some blk → c.blocks[b']? = some blk' →
        blk.kind = .basic → blk'.kind = .basic → blk'.start = blk.stop → FallsThrough c blk →
        (∃ k, Active c blk k) → (∃ k, Active c blk' k) →
        (∀ row row', Jumps.RowHolds e blk row → Jumps.RowHolds e blk' row' → row < row') ∧
        (Adjoins e blk blk' ↔ ∀ (n : Nat) (mid : Block), c.blocks[n]? = some mid →
          mid.kind = .basic → order.idxOf (b : Int) < order.idxOf (n : Int) →
          order.idxOf (n : Int) < order.idxOf (b' : Int) → ¬ ∃ k, Active c mid k) ∧
        (JumpsForward words → Adjoins e blk blk') := by
  obtain ⟨c, d, d', _, -, -, hprep, hready, hplace, hd', -, -, hcounts⟩ :=
    Optimize.runs_run hwords hrun
  obtain ⟨parsed, fresh, marked, hjumps, -, hparsed, -⟩ :=
    Optimize.runs_prepare (Optimize.uncut_start hwords) hprep
  obtain ⟨order, r, spans, horder, hlists, hd, hl, -⟩ :=
    layout_of_placeAll hparsed.blocks hready.unplaced hready.sized hplace
  have htable : e.table = d.table := by rw [hcounts.retargeted.rest, hd']
  refine ⟨c, order, hprep, horder, ?_⟩
  intro b b' blk blk' hb hb' hkind hkind' hnext hfall hact hact'
  obtain ⟨s, hs, hsb⟩ := hl.span_of_block hlists hb hkind
  obtain ⟨s', hs', hsb'⟩ := hl.span_of_block hlists hb' hkind'
  have hlater := order_of_fallsThrough hparsed horder hlists hb hb' hkind hkind' hnext hfall
  have hlt : s.last < s'.first := by
    rw [← hl.order_iff hlists.nodup hs hs', hsb, hsb']
    exact hlater
  -- spans between the two are those of blocks between the two
  have hiff : Adjoins e blk blk' ↔ ∀ (n : Nat) (mid : Block), c.blocks[n]? = some mid →
      mid.kind = .basic → order.idxOf (b : Int) < order.idxOf (n : Int) →
      order.idxOf (n : Int) < order.idxOf (b' : Int) → ¬ ∃ k, Active c mid k := by
    rw [adjoins_of_table htable,
      hl.adjoins_iff hlists hd hs hs' hsb hsb' hb hb' hkind hkind' hact hact' hlt]
    constructor
    · intro hidle n mid hmid hmkind hlow hhigh
      obtain ⟨m, hm, hmn⟩ := hl.span_of_block hlists hmid hmkind
      rw [← hsb, ← hmn, hl.order_iff hlists.nodup hs hm] at hlow
      rw [← hsb', ← hmn, hl.order_iff hlists.nodup hm hs'] at hhigh
      exact hidle m hm hlow hhigh n mid hmn hmid hmkind
    · intro hidle m hm hlow hhigh n mid hmn hmid hmkind
      rw [← hl.order_iff hlists.nodup hs hm, hsb, hmn] at hlow
      rw [← hl.order_iff hlists.nodup hm hs', hsb', hmn] at hhigh
      exact hidle n mid hmid hmkind hlow hhigh
  refine ⟨?_, hiff, ?_⟩
  · intro row row' hrow hrow'
    unfold Jumps.RowHolds at hrow hrow'
    rw [htable] at hrow hrow'
    have := hl.row_inside hd hs hsb hb hkind hrow
    have := hl.row_inside hd hs' hsb' hb' hkind' hrow'
    omega
  · intro hforward
    have hascend := order_ascends hparsed (hparsed.hasLeader hb hkind)
      (hforward.of_jumpsFrom hjumps) horder
    refine hiff.mpr fun n mid hmid hmkind hlow hhigh => ?_
    -- no block stands between the two in the program
    have hcut := hparsed.blocks.cut
    have hbn := rel_of_idxOf_lt hascend (hlists.all n mid hmid hmkind) hlow
    have hnb := rel_of_idxOf_lt hascend (hlists.all b' blk' hb' hkind') hhigh
    have hafter := hcut.disjoint hb hmid hkind hmkind (by omega)
    have hbefore := hcut.disjoint hmid hb' hmkind hkind' (by omega)
    have hspan := hcut.span n mid hmid hmkind
    omega

/-- A program whose last instruction jumps back to its exit. -/
def jumpBackToExit : Array Word :=
  #[0x1501010000000000, 0x9500000000000000, 0x0500feff00000000]

/-- The jump is placed between the test and the exit. -/
theorem falls_through_to_next_row_iff_jumpBackToExit :
    ∃ (c e : Compilation) (blk blk' : Block),
      Runs Optimize.prepare (quietStart jumpBackToExit) () c ∧
      Runs Optimize.run (quietStart jumpBackToExit) () e ∧ c.blocks[1]? = some blk ∧
      c.blocks[2]? = some blk' ∧ blk'.start = blk.stop ∧ FallsThrough c blk ∧
      (∃ k, Active c blk k) ∧ (∃ k, Active c blk' k) ∧ ¬ Adjoins e blk blk' := by
  obtain ⟨x, e, hc, he, ho, horder, hblocks⟩ :=
    exists_compiled (s := quietStart jumpBackToExit) (P := fun c _ =>
      finishes blockOrder c = true ∧ resultAfter blockOrder c = [1, 3, 2] ∧
      ∃ blk, blk ∈ c.blocks[1]? ∧ ∃ blk', blk' ∈ c.blocks[2]? ∧ ∃ mid, mid ∈ c.blocks[3]? ∧
      blk.kind = .basic ∧ blk'.kind = .basic ∧ mid.kind = .basic ∧ blk'.start = blk.stop ∧
      blk.body.size = 1 ∧
      FieldsAt c blk 0 { opcode := 0x15, dst := 1, src := 0, offset := 1, immediate := 0 } ∧
      FieldsAt c blk' 0 { opcode := 0x95, dst := 0, src := 0, offset := 0, immediate := 0 } ∧
      FieldsAt c mid 0 { opcode := 0x05, dst := 0, src := 0, offset := -2, immediate := 0 })
      (by decide +kernel) (by decide +kernel) (by decide +kernel)
  obtain ⟨c, order, hprep, hrun, hall⟩ := falls_through_to_next_row_iff (by decide +kernel) he
  obtain ⟨-, rfl⟩ := hprep.unique hc
  obtain ⟨rfl, -⟩ := hrun.unique (runs_after ho)
  rw [horder] at hall
  obtain ⟨blk, hb, blk', hb', mid, hmid, hkind, hkind', hmkind, hnext, hsize, hf, hf', hfm⟩ := hblocks
  have hfall : FallsThrough c blk := ⟨0, _, by omega, hf, by decide, by decide⟩
  have hact : ∃ k, Active c blk k := ⟨0, _, hf, by decide⟩
  have hact' : ∃ k, Active c blk' k := ⟨0, _, hf', by decide⟩
  obtain ⟨-, hiff, -⟩ := hall 1 2 blk blk' hb hb' hkind hkind' hnext hfall hact hact'
  refine ⟨c, _, blk, blk', hc, he, hb, hb', hnext, hfall, hact, hact', fun hadj => ?_⟩
  exact hiff.mp hadj 3 mid hmid hmkind (by decide) (by decide) ⟨0, _, hfm, by decide⟩

end Schedule
end BpfLanes
