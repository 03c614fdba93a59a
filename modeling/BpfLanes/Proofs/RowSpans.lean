import BpfLanes.Proofs.PlacementRows
import BpfLanes.Proofs.ScheduleSound

/-! # Blocks take consecutive rows

The rows of a block form a span, and the spans of all blocks follow one another
without a gap, in the order of the flow graph. A span ends in a row that the block
uses, and its branch stands there; so no row has two branches. It starts in a row that
the block uses as well, unless all that the block has to do is a branch that is bound
to the first lane. A block that does nothing takes one empty row.
-/

namespace BpfLanes.Schedule

open Compilation BpfLanes.Flow Dependence Placement

variable {f : Fields} {lane row : Int} {id : Nat}

/-! ## Spans -/

/-- The rows of one block. -/
structure Span where
  block : Int
  first : Int
  last : Int
  deriving DecidableEq, Repr

/-- Spans of at least one row each fill the rows from `row` on, one after another and
    without a gap, up to the row before `stop`. -/
def Abut : Int → List Span → Int → Prop
  | row, [], stop => row = stop
  | row, s :: rest, stop => s.first = row ∧ s.first ≤ s.last ∧ Abut (s.last + 1) rest stop

section
variable {stop : Int} {spans : List Span}
variable (h : Abut row spans stop)
include h

theorem Abut.append {s : Span} (hfirst : s.first = stop) (hle : s.first ≤ s.last) :
    Abut row (spans ++ [s]) (s.last + 1) := by
  induction spans generalizing row with
  | nil =>
    cases h
    exact ⟨hfirst, hle, rfl⟩
  | cons s' rest ih => exact ⟨h.1, h.2.1, ih h.2.2⟩

theorem Abut.le : row ≤ stop := by
  induction spans generalizing row with
  | nil => exact Int.le_of_eq h
  | cons s rest ih =>
    obtain ⟨hfirst, hle, hrest⟩ := h
    have := ih hrest
    omega

theorem Abut.inside {s : Span} (hs : s ∈ spans) :
    row ≤ s.first ∧ s.first ≤ s.last ∧ s.last < stop := by
  induction spans generalizing row with
  | nil => cases hs
  | cons s' rest ih =>
    obtain ⟨hfirst, hle, hrest⟩ := h
    rcases List.mem_cons.mp hs with rfl | hs
    · have := hrest.le
      omega
    · have := ih hrest hs
      omega

theorem Abut.pairwise : spans.Pairwise fun s s' => s.last < s'.first := by
  induction spans generalizing row with
  | nil => exact List.Pairwise.nil
  | cons s rest ih =>
    apply List.Pairwise.cons
    · intro s' hs'
      have := (Abut.inside h.2.2 hs').1
      omega
    · exact ih h.2.2

theorem Abut.unique {s s' : Span} (hs : s ∈ spans) (hs' : s' ∈ spans) {x : Int}
    (hx : s.first ≤ x ∧ x ≤ s.last) (hx' : s'.first ≤ x ∧ x ≤ s'.last) : s = s' := by
  induction spans generalizing row with
  | nil => cases hs
  | cons s₀ rest ih =>
    obtain ⟨_, _, hrest⟩ := h
    rcases List.mem_cons.mp hs with rfl | hmem
    · rcases List.mem_cons.mp hs' with rfl | hmem'
      · rfl
      · have := hrest.inside hmem'
        omega
    · rcases List.mem_cons.mp hs' with rfl | hmem'
      · have := hrest.inside hmem
        omega
      · exact ih hrest hmem hmem'

end

/-! ## The rows of one block -/

/-- Some instruction of a block that does something may stand in any lane. -/
def Unbound (c : Compilation) (blk : Block) : Prop :=
  ∃ (k : Nat) (f : Fields), FieldsAt c blk k f ∧ f.isNop = false ∧
    (f.isBranch = true → c.target.branchAnyLane = true)

/-- How a block of `c` stands in the rows from `first` to `last`. -/
structure Fills (c d : Compilation) (blk : Block) (first last : Int) : Prop where
  inside : ∀ k row lane, k < blk.body.size → StandsAt d blk k row lane →
    first ≤ row ∧ row ≤ last
  begins : Unbound c blk → ∃ k lane, k < blk.body.size ∧ StandsAt d blk k first lane
  ends : (∃ k, Active c blk k) → ∃ k lane, k < blk.body.size ∧ StandsAt d blk k last lane
  idle : (¬ ∃ k, Active c blk k) → first = last
  branch : ∀ (k : Nat) (f : Fields) (row lane : Int), FieldsAt c blk k f → f.isBranch = true →
    StandsAt d blk k row lane → row = last

theorem Fills.congr {c d e : Compilation} {blk : Block} {first last : Int}
    (h : Fills c d blk first last)
    (hsame : ∀ k, k < blk.body.size → placeIn e blk k = placeIn d blk k) :
    Fills c e blk first last := by
  have hiff : ∀ k row lane, k < blk.body.size →
      (StandsAt e blk k row lane ↔ StandsAt d blk k row lane) := by
    intro k row lane hk
    unfold StandsAt
    rw [hsame k hk]
  refine ⟨?_, ?_, ?_, h.idle, ?_⟩
  · intro k row lane hk hs
    exact h.inside k row lane hk ((hiff k row lane hk).mp hs)
  · intro hfree
    obtain ⟨k, lane, hk, hs⟩ := h.begins hfree
    exact ⟨k, lane, hk, (hiff k first lane hk).mpr hs⟩
  · intro hact
    obtain ⟨k, lane, hk, hs⟩ := h.ends hact
    exact ⟨k, lane, hk, (hiff k last lane hk).mpr hs⟩
  · intro k f row lane hf hbranch hs
    exact h.branch k f row lane hf hbranch ((hiff k row lane hf.index_lt).mp hs)

variable {rows : Int} {Q : Instr → Prop} {words : Array Word} {c c₀ d e : Compilation} {b k : Nat}
  {blk : Block} {g : Digraph} {lastRow stop : Int} {order done rest : List Int} {r r' : Reach}
  {spans : List Span}

theorem isBranch_of_sameOperations {touched : Nat → Prop}
    (h : SameOperations touched c.store d.store) {n : Int} {f' : Fields} (hf : FieldsAt c blk n f)
    (hf' : FieldsAt d blk n f') : f'.isBranch = f.isBranch := by
  obtain ⟨f'', hf'', hopcode⟩ := hf.renamed h
  rw [hf'.unique hf'']
  unfold Fields.isBranch
  rw [hopcode]

section
variable (hc : Laid Q words c) (ho : Opened c c₀ b blk g lastRow order)
  (hd : Partly c₀ b blk g lastRow order done r d) (hs : Stacked rows c r d)
  (horder : order = done ++ (k : Int) :: rest)
include hc ho hd hs horder

theorem Opened.wait_first (hrow : r.row = lastRow) {w : Wait}
    (hw : Runs (awaitAll b blk lastRow k (g.before k)) d w d) : w.row = lastRow := by
  have ha := ho.awaited hc hd horder
  have hnone : ∀ (p : Int) (q : Option Int) (pl : Place), p ∈ g.before k → p ≠ -1 →
      PlaceAt d blk p q pl → False := by
    intro p q pl hp hne hplace
    obtain ⟨reg, i, rfl, hi⟩ := ho.feeds_of_mem hc horder hp hne
    obtain ⟨_, pl', lane, hpl', hlane, _, hlow⟩ := ho.feeder hc hd horder hi
    obtain ⟨id, _, hslot⟩ := hd.tabled.placed_slot hpl' hlane
    have := hs.filled _ _ _ hslot
    omega
  cases (awaitAll_exact ha hw).2 with
  | entry _ hrow' _ => exact hrow'
  | one hp hne hplace _ _ => exact (hnone _ _ _ hp hne hplace).elim
  | two hp _ hne _ _ hplace _ _ _ _ => exact (hnone _ _ _ hp hne hplace).elim

omit hc horder in
theorem Opened.branch_again (hf : FieldsAt c blk k f) (hbranch : f.isBranch = true)
    {y y' : Compilation} {s : Slot} (hy : Renamed blk d y) (hrow : -1 ≤ row)
    (h : Runs (find b g row r.row k) y s y') : r.row ≤ s.row := by
  obtain ⟨f', hf', hbranch'⟩ := ho.fieldsAt_branch hd hf
  have hblk : y.blocks[b]? = some blk := by
    rw [hy.blocks]
    exact ho.block_eq hd
  have hsized : Table.Sized rows y.target.lanes y.table := by
    rw [hy.table, hy.rest]
    show Table.Sized rows d.target.lanes d.table
    rw [show d.target = c.target by rw [hd.frame, ho.target]]
    exact hs.sized
  have hfill : y.table.FilledTo r.row := by
    rw [hy.table]
    exact hs.filled
  obtain ⟨_, f₂, _, hf₂, _, hlow⟩ :=
    find_lands (hy.tabled hd.tabled) hblk hsized hfill hrow (ho.edges.entryFirst k) h
  apply hlow
  rwa [isBranch_of_sameOperations hy.store hf' hf₂, hbranch']

/-- Where the next instruction is put. A branch goes into the last row in use or behind
    it, and the first instruction into the row behind the blocks before, unless it is
    bound to the first lane. -/
theorem Opened.put_row (hf : FieldsAt c blk k f)
    (h : Runs (placeInstr b blk g lastRow r k) d r' e) :
    ∃ row lane, StandsAt e blk k row lane ∧ (∀ k', k' ≠ k → placeIn e blk k' = placeIn d blk k') ∧
      r'.row = max r.row row ∧ lastRow < row ∧ (f.isBranch = true → r.row ≤ row) ∧
      (r.row = lastRow → (f.isBranch = true → c.target.branchAnyLane = true) →
        row = lastRow + 1) := by
  have htarget : d.target = c.target := by rw [hd.frame, ho.target]
  have hsized : Table.Sized rows d.target.lanes d.table := by
    rw [htarget]
    exact hs.sized
  obtain ⟨f', hf', hbranch'⟩ := ho.fieldsAt_branch hd hf
  obtain ⟨_, x, s₀, s, hin⟩ := ho.inserted hd horder h
  have hfind := hin.found
  have hmoved := (hs.moved ho hd hin).1
  obtain ⟨w, f₁, hw, hf₁, hlands, hlow⟩ :=
    find_lands hd.tabled (ho.block_eq hd) hsized hs.filled ho.last (ho.edges.entryFirst k) hfind
  rw [hf₁.unique hf', hbranch'] at hlands hlow
  have hafter := (ho.found hd hfind).after
  refine ⟨s.row, s.lane, ho.stands hd horder hin, fun _ => hin.placeIn_of_ne, hin.row,
    hin.slot.after, ?_, ?_⟩
  · intro hbranch
    rcases hmoved with rfl | ⟨y, row, hy, _, _, hfind'⟩
    · exact hlow hbranch
    · have := ho.last
      exact ho.branch_again hd hs hf hbranch hy (by omega) hfind'
  · -- nothing of the block was placed, so no value of it can push the slot further down
    intro hstart hfree
    have hwait := ho.wait_first hc hd hs horder hstart hw
    have hsame : s = s₀ := by
      rcases hmoved with hsame | ⟨_, row, _, hlt, hle, _⟩
      · exact hsame
      · omega
    subst hsame
    -- of all ways to land only a branch that is bound to the first lane skips the row
    cases hlands with
    | inside hin => omega
    | opens hat _ => omega
    | follows hat _ _ _ _ => omega
    | skips hbound hbranch _ _ _ _ _ _ =>
      rw [htarget, hfree hbranch] at hbound
      cases hbound

end

/-! ## Instruction after instruction -/

/-- The rows that the instructions in `done` of a block reach. -/
structure Rising (c : Compilation) (blk : Block) (lastRow : Int) (done : List Int) (r : Reach)
    (d : Compilation) : Prop where
  start : done = [] → r.row = lastRow
  first : ∀ (k : Nat) (f : Fields), done.head? = some (k : Int) → FieldsAt c blk k f →
    (f.isBranch = true → c.target.branchAnyLane = true) →
    ∃ lane, StandsAt d blk k (lastRow + 1) lane
  last : done ≠ [] → ∃ (k : Nat) (lane : Int), (k : Int) ∈ done ∧ StandsAt d blk k r.row lane
  branch : ∀ (k : Nat) (f : Fields) (row lane : Int), (k : Int) ∈ done → FieldsAt c blk k f →
    f.isBranch = true → StandsAt d blk k row lane → row = r.row

theorem rising_start : Rising c blk r.row [] r d where
  start := fun _ => rfl
  first := fun _ _ hhead => by cases hhead
  last := fun hne => absurd rfl hne
  branch := fun _ _ _ _ hk => by cases hk

/-- One more instruction. -/
theorem Rising.step (hc : Laid Q words c) (ho : Opened c c₀ b blk g lastRow order)
    (hd : Partly c₀ b blk g lastRow order done r d) (hs : Stacked rows c r d)
    (horder : order = done ++ (k : Int) :: rest) (hrise : Rising c blk lastRow done r d)
    (h : Runs (placeInstr b blk g lastRow r k) d r' e) :
    Rising c blk lastRow (done ++ [(k : Int)]) r' e := by
  have hk := ho.index_lt horder
  obtain ⟨f, hf, _⟩ := ho.active horder
  obtain ⟨row, lane, hself, hother, hrow, hbehind, hlow, hfirst⟩ :=
    ho.put_row hc hd hs horder hf h
  have hlater : ∀ {k' : Nat}, (k' : Int) ∈ done → k' < k := by
    intro k' hk'
    have := ((ho.places.mem_done horder).mp hk').2
    omega
  have hkept : ∀ {k' : Nat} {row' lane' : Int}, (k' : Int) ∈ done →
      (StandsAt e blk k' row' lane' ↔ StandsAt d blk k' row' lane') := by
    intro k' row' lane' hk'
    have := hlater hk'
    unfold StandsAt
    rw [hother k' (by omega)]
  constructor
  · intro hnil
    simp at hnil
  · -- the first instruction opens the row behind the blocks before
    intro k' f' hhead hf' hfree
    cases hcases : done with
    | nil =>
      rw [hcases] at hhead
      obtain rfl : k = k' := by simpa using hhead
      rw [hf'.unique hf] at hfree
      rw [← hfirst (hrise.start hcases) hfree]
      exact ⟨lane, hself⟩
    | cons n more =>
      have hhead' : done.head? = some (k' : Int) := by
        rw [hcases] at hhead ⊢
        simpa using hhead
      obtain ⟨lane', hs'⟩ := hrise.first k' f' hhead' hf' hfree
      exact ⟨lane', (hkept (List.mem_of_mem_head? hhead')).mpr hs'⟩
  · intro _
    by_cases hle : r.row ≤ row
    · refine ⟨k, lane, by simp, ?_⟩
      rwa [hrow, Int.max_eq_right hle]
    -- the last row in use stays the last one
    have hne : done ≠ [] := by
      intro hnil
      have hstart := hrise.start hnil
      omega
    obtain ⟨k', lane', hk', hs'⟩ := hrise.last hne
    refine ⟨k', lane', by simp [hk'], ?_⟩
    rw [hrow, Int.max_eq_left (by omega)]
    exact (hkept hk').mpr hs'
  · intro k' f' row' lane' hk' hf' hbranch hs'
    rcases mem_snoc.mp hk' with hk' | rfl
    · -- a branch is the last instruction of its block
      have hlast := hc.branchLast ho.block ho.basic k' f' (by omega)
        (by have := hf'.index_lt; omega) hf' hbranch
      have := hlater hk'
      omega
    · rw [hf'.unique hf] at hbranch
      obtain ⟨rfl, _⟩ := hs'.unique hself
      have := hlow hbranch
      omega

theorem Opened.head_unbound (hc : Laid Q words c) (ho : Opened c c₀ b blk g lastRow order)
    (hfree : Unbound c blk) :
    ∃ (k : Nat) (f : Fields), order.head? = some (k : Int) ∧ FieldsAt c blk k f ∧
      (f.isBranch = true → c.target.branchAnyLane = true) := by
  obtain ⟨k, f, hf, hnop, hlane⟩ := hfree
  have hk := ho.lists.mpr ⟨f, hf, hnop⟩
  have hascend := ho.places.ascend
  cases horder : order with
  | nil =>
    rw [horder] at hk
    cases hk
  | cons n rest =>
    rw [horder] at hk hascend
    obtain ⟨k₀, rfl, hsize⟩ := ho.places.next (show order = [] ++ n :: rest from horder)
    obtain ⟨f₀, hf₀, _⟩ := ho.active (show order = [] ++ (k₀ : Int) :: rest from horder)
    refine ⟨k₀, f₀, rfl, hf₀, ?_⟩
    intro hbranch
    have hlast := hc.branchLast ho.block ho.basic k₀ f₀ (by omega) (by omega) hf₀ hbranch
    have hlt := hf.index_lt
    -- the list ascends, and a branch is the last instruction of its block
    obtain rfl : k = k₀ := by
      rcases List.mem_cons.mp hk with heq | hmore
      · omega
      · have := List.rel_of_pairwise_cons hascend hmore
        omega
    rw [hf₀.unique hf] at hbranch
    exact hlane hbranch

section
variable (hc : Laid Q words c) (ho : Opened c c₀ b blk g r.row order)
include hc ho

theorem Rising.fills (hd : Partly c₀ b blk g r.row order order r' e)
    (hrise : Rising c blk r.row order r' e) :
    Fills c e blk (r.row + 1) (if r.row < r'.row then r'.row else r'.row + 1) := by
  -- a block that does something gets beyond the rows before it
  have hbeyond : order ≠ [] → r.row < r'.row := by
    intro hne
    obtain ⟨k, lane, hk, hs⟩ := hrise.last hne
    obtain ⟨_, _, hs', hlow, _⟩ := standsAt_of_placed hd hk
    rwa [(hs.unique hs').1]
  refine ⟨?_, ?_, ?_, ?_, ?_⟩
  · intro k row lane hk hs
    obtain ⟨hlow, hhigh⟩ := rows_of_standsAt ho.ready hd hk hs
    split <;> omega
  · intro hfree
    obtain ⟨k, f, hhead, hf, hlane⟩ := ho.head_unbound hc hfree
    obtain ⟨lane, hs⟩ := hrise.first k f hhead hf hlane
    exact ⟨k, lane, hf.index_lt, hs⟩
  · rintro ⟨k, hk⟩
    have hne : order ≠ [] := List.ne_nil_of_mem (ho.lists.mpr hk)
    obtain ⟨k', lane, hk', hs⟩ := hrise.last hne
    obtain ⟨f, hf, _⟩ := ho.lists.mp hk'
    rw [if_pos (hbeyond hne)]
    exact ⟨k', lane, hf.index_lt, hs⟩
  · intro hidle
    have hnil : order = [] := by
      by_contra hne
      obtain ⟨n, hn⟩ := List.exists_mem_of_ne_nil order hne
      obtain ⟨k, rfl, _⟩ := ho.places.index hn
      exact hidle ⟨k, ho.lists.mp hn⟩
    have hstart := hrise.start hnil
    omega
  · intro k f row lane hf hbranch hs
    have hk := mem_done_of_standsAt ho.ready hd hf.index_lt hs
    rw [if_pos (hbeyond (List.ne_nil_of_mem hk))]
    exact hrise.branch k f row lane hk hf hbranch hs

theorem Opened.rising (hs : Stacked rows c r c₀) (hlisted : done <+: order)
    (h : Runs (done.foldlM (placeInstr b blk g r.row) r) c₀ r' d) :
    Partly c₀ b blk g r.row order done r' d ∧ Stacked rows c r' d ∧ Rising c blk r.row done r' d :=
  ho.induct (fun done r₁ d => Stacked rows c r₁ d ∧ Rising c blk r.row done r₁ d) hlisted h
    ⟨hs, rising_start⟩ fun _ _ _ _ _ _ _ hsplit hd hall hr =>
      ⟨hall.1.step ho hd hsplit hr, hall.2.step hc ho hd hall.1 hsplit hr⟩

theorem Opened.fills (hs : Stacked rows c r c₀)
    (h : Runs (order.foldlM (placeInstr b blk g r.row) r) c₀ r' e) :
    Stacked rows c r' e ∧
      Fills c e blk (r.row + 1) (if r.row < r'.row then r'.row else r'.row + 1) := by
  obtain ⟨hd, hstack, hrise⟩ := ho.rising hc hs (List.prefix_refl _) h
  exact ⟨hstack, hrise.fills hc ho hd⟩

end

/-! ## Block after block -/

/-- The blocks in `done` stand in spans that follow one another up to row `stop`. -/
structure Layout (c : Compilation) (done : List Int) (spans : List Span) (stop : Int)
    (d : Compilation) : Prop where
  blocks : spans.map Span.block = done
  abut : Abut 0 spans stop
  fills : ∀ s ∈ spans, ∀ (b : Nat) (blk : Block), s.block = b → c.blocks[b]? = some blk →
    Fills c d blk s.first s.last

section
variable (hc : Laid Q words c) (hb : c.blocks[b]? = some blk) (hkind : blk.kind = .basic)
  (hnew : (b : Int) ∉ done)
include hc hb hkind hnew

theorem Progress.fills_next (hd : Progress c done r d) (hs : Stacked rows c r d)
    (h : Runs (placeNext r b) d r' e) :
    Stacked rows c r' e ∧ Fills c e blk (r.row + 1) r'.row ∧ r.row + 1 ≤ r'.row := by
  obtain ⟨g, x, placed, r₁, e₁, ranges, ho, hrun, hpartly, hrow, hleave, rfl, _⟩ :=
    hd.runs_next hc hb hkind hnew h
  obtain ⟨hstack, hfills⟩ := ho.fills hc (hs.setDrawings x) hrun
  have hge := hpartly.row
  rw [← hrow] at hfills
  have hle : r₁.row ≤ r'.row ∧ r.row + 1 ≤ r'.row := by
    rw [hrow]
    split <;> omega
  exact ⟨hstack.leaveBlock hle.1 hleave, hfills.congr fun _ _ => rfl, hle.2⟩

theorem Layout.step (horder : ListsBlocks c order) (hstart : done <+: order)
    (hd : Progress c done r d) (hs : Stacked rows c r d) (hl : Layout c done spans (r.row + 1) d)
    (h : Runs (placeNext r b) d r' e) :
    Layout c (done ++ [(b : Int)]) (spans ++ [⟨b, r.row + 1, r'.row⟩]) (r'.row + 1) e := by
  obtain ⟨_, hfills, hbeyond⟩ := hd.fills_next hc hb hkind hnew hs h
  refine ⟨?_, hl.abut.append rfl hbeyond, ?_⟩
  · rw [List.map_append, hl.blocks]
    rfl
  intro s hmem b' blk' hb' hblk'
  rcases List.mem_append.mp hmem with hmem | hmem
  · -- a block that was placed before stays where it is
    have hdone : s.block ∈ done := by
      rw [← hl.blocks]
      exact List.mem_map_of_mem hmem
    obtain ⟨b'', blk'', heq, hb'', hkind''⟩ := horder.basic s.block (hstart.subset hdone)
    obtain rfl : b' = b'' := by omega
    rw [hblk'] at hb''
    cases hb''
    have hne : b' ≠ b := by
      intro heq
      rw [hb', heq] at hdone
      exact hnew hdone
    exact (hl.fills s hmem b' blk' hb' hblk').congr fun k hk =>
      (hd.other_next hc hb hkind hnew h hblk' hkind'' hne).1 k hk
  · obtain rfl := List.mem_singleton.mp hmem
    obtain rfl : b' = b := by
      have : (b : Int) = b' := hb'
      omega
    rw [hb] at hblk'
    cases hblk'
    exact hfills

end

theorem layout_of_placeBlocks (hc : Laid Q words c)
    (hempty : NothingPlaced c) (ht : Table.Sized rows c.target.lanes c.table)
    (horder : ListsBlocks c order) (hdone : done <+: order)
    (h : Runs (done.foldlM placeNext { row := -1, position := -1 }) c r d) :
    Progress c done r d ∧ Stacked rows c r d ∧ ∃ spans, Layout c done spans (r.row + 1) d := by
  refine horder.induct hc hempty h (fun done r d => Stacked rows c r d ∧
    ∃ spans, Layout c done spans (r.row + 1) d) hdone ?_ ?_
  · exact ⟨stacked_start hempty ht, [], rfl, rfl, fun s hs => nomatch hs⟩
  · rintro done rest b blk r r' d e hsplit hb hkind hnew hd ⟨hs, spans, hl⟩ hr
    exact ⟨(hd.fills_next hc hb hkind hnew hs hr).1, _,
      hl.step hc hb hkind hnew horder ⟨_, hsplit.symm⟩ hd hs hr⟩

section
variable (hl : Layout c order spans stop d) (horder : ListsBlocks c order)
  (hd : Progress c order r d) (hslot : Table.entry d.table row lane = some (some id))
include hl horder hd hslot

theorem Layout.home :
    ∃ s ∈ spans, s.first ≤ row ∧ row ≤ s.last ∧ ∃ (b : Nat) (blk : Block) (k : Nat),
      s.block = b ∧ c.blocks[b]? = some blk ∧ blk.kind = .basic ∧ blk.body[k]? = some id ∧
      Active c blk k ∧ StandsAt d blk k row lane := by
  obtain ⟨q, pl, ⟨b, blk, k, hb, hkind, hk, rfl⟩, hpl, htime, hlane⟩ :=
    (hd.tabled.slot row lane id).mp hslot
  rw [hd.frame.blocks] at hb
  have hlt : k < blk.body.size := lt_size hk
  have hstands : StandsAt d blk k row lane := ⟨pl, hpl, htime, hlane⟩
  have hmem := horder.all b blk hb hkind
  have hact := (hd.finished b blk hmem hb hkind).active k row lane hlt hstands
  rw [← hl.blocks] at hmem
  obtain ⟨s, hs, hsb⟩ := List.mem_map.mp hmem
  obtain ⟨hlow, hhigh⟩ := (hl.fills s hs b blk hsb hb).inside k row lane hlt hstands
  exact ⟨s, hs, hlow, hhigh, b, blk, k, hsb, hb, hkind, hk, hact, hstands⟩

theorem Layout.own {s : Span} (hs : s ∈ spans) (hrow : s.first ≤ row ∧ row ≤ s.last) :
    ∃ (b : Nat) (blk : Block) (k : Nat), s.block = b ∧ c.blocks[b]? = some blk ∧
      blk.kind = .basic ∧ blk.body[k]? = some id ∧ Active c blk k ∧ StandsAt d blk k row lane := by
  obtain ⟨s', hs', hlow, hhigh, hown⟩ := hl.home horder hd hslot
  obtain rfl := hl.abut.unique hs hs' hrow ⟨hlow, hhigh⟩
  exact hown

end

/-- A table of `rows` rows ends at row `stop`, unless it has fewer rows. -/
def CutAt (rows lanes stop : Int) (t : Table) : Prop :=
  (t.size : Int) ≤ stop ∧ (0 < lanes → stop ≤ rows → (t.size : Int) = stop)

theorem Stacked.cutAt (hs : Stacked rows c r d) (hrow : -1 ≤ r.row) :
    CutAt rows c.target.lanes (r.row + 1) (Position.takeBefore d.table (r.row + 1)) := by
  unfold Position.takeBefore CutAt
  rw [if_pos (by omega), Array.size_extract]
  refine ⟨by omega, fun hlanes hle => ?_⟩
  have := hs.sized.rows_le hlanes
  omega

theorem layout_of_placeAll {u : Unit} (hc : Laid Q words c)
    (hempty : NothingPlaced c) (ht : Table.Sized rows c.target.lanes c.table)
    (h : Runs placeAll c u d) :
    ∃ order r spans, Runs blockOrder c order c ∧ ListsBlocks c order ∧ Progress c order r d ∧
      Layout c order spans (r.row + 1) d ∧ CutAt rows c.target.lanes (r.row + 1) d.table := by
  obtain ⟨order, r, d₁, printed, horder, hlists, hrun, rfl⟩ := runs_placeAll hc h
  obtain ⟨hd₁, hs, spans, hl⟩ :=
    layout_of_placeBlocks hc hempty ht hlists (List.prefix_refl _) hrun
  refine ⟨order, r, spans, horder, hlists, hd₁.truncate.setReports d₁.ranges printed d₁.drawings,
    ⟨hl.blocks, hl.abut, ?_⟩, hs.cutAt hd₁.row⟩
  intro s hs b blk hb hblk
  exact (hl.fills s hs b blk hb hblk).congr fun _ _ => rfl

/-- Blocks take consecutive rows. They stand in spans that follow one another without a
    gap up to the end of the table, in an order of the flow graph in which no edge leads
    back; no row belongs to two blocks, whatever stands in the rows of a block is an
    instruction of it that does something, and no row has two branches. -/
theorem blocks_take_consecutive_rows {target : Target} {options : Options} {words : Array Word}
    {texts : Array String} (hwords : NoJumpBefore words) {c d : Compilation}
    (hprep : Runs Optimize.prepare (start target options words texts) () c)
    (hplace : Runs placeAll c () d) :
    ∃ (g : Digraph) (order : List Int) (spans : List Span) (stop : Int),
      c.flow = some g ∧ Runs blockOrder c order c ∧ ListsBlocks c order ∧
      Digraph.Forward g.edges order ∧ Layout c order spans stop d ∧
      CutAt words.size target.lanes stop d.table ∧
      (spans.Pairwise fun s s' => s.last < s'.first) ∧
      (∀ s ∈ spans, ∀ (row lane : Int) (id : Nat), s.first ≤ row → row ≤ s.last →
        Table.entry d.table row lane = some (some id) →
        ∃ (b : Nat) (blk : Block) (k : Nat), s.block = b ∧ c.blocks[b]? = some blk ∧
          blk.body[k]? = some id ∧ Active c blk k) ∧
      ∀ (row lane lane' : Int) (id id' : Nat) (i i' : Instr) (f f' : Fields),
        Table.entry d.table row lane = some (some id) →
        Table.entry d.table row lane' = some (some id') → d.store[id]? = some i →
        d.store[id']? = some i' → Fields.decode i.word = .ok f → Fields.decode i'.word = .ok f' →
        f.isBranch = true → f'.isBranch = true → lane = lane' := by
  obtain ⟨parsed, hready⟩ := placeable_of_prepare hwords hprep
  have hc := hready.laid
  obtain ⟨order, r, spans, horder, hlists, hd, hl, hcut⟩ :=
    layout_of_placeAll hc hready.unplaced hready.sized hplace
  rw [hready.target] at hcut
  obtain ⟨g, all, hg, hall, hsub⟩ := runs_blockOrder horder
  obtain ⟨g', hg', hcovers⟩ := hc.flow
  rw [hg] at hg'
  cases hg'
  refine ⟨g, order, spans, r.row + 1, hg, horder, hlists,
    (Digraph.smallestFirst_spec hcovers.nodup hall).2.sublist hsub, hl, hcut, hl.abut.pairwise,
    ?_, ?_⟩
  · intro s hs row lane id hlow hhigh hslot
    obtain ⟨b, blk, k, hb, hblk, _, hk, hact, _⟩ := hl.own hlists hd hslot hs ⟨hlow, hhigh⟩
    exact ⟨b, blk, k, hb, hblk, hk, hact⟩
  · intro row lane lane' id id' i i' f f' hslot hslot' hi hi' hf hf' hbranch hbranch'
    -- both stand in the rows of one block, whose last instruction is its only branch
    obtain ⟨s, hs, hlow, hhigh, b, blk, k, hb, hblk, hkind, hk, ⟨f₀, hf₀, _⟩, hstands⟩ :=
      hl.home hlists hd hslot
    obtain ⟨b', blk', k', hb', hblk', _, hk', ⟨f₀', hf₀', _⟩, hstands'⟩ :=
      hl.own hlists hd hslot' hs ⟨hlow, hhigh⟩
    obtain rfl : b = b' := by omega
    rw [hblk] at hblk'
    cases hblk'
    have hat : ∀ {k id : Nat} {i : Instr} {f f₀ : Fields}, blk.body[k]? = some id →
        d.store[id]? = some i → Fields.decode i.word = .ok f → f.isBranch = true →
        FieldsAt c blk k f₀ → (k : Int) = (blk.body.size : Int) - 1 := by
      intro k id i f f₀ hk hi hf hbranch hf₀
      have hf₁ : FieldsAt d blk k f := ⟨id, i, ⟨Position.get_natCast.mpr hk, hi⟩, hf⟩
      rw [isBranch_of_sameOperations hd.store hf₀ hf₁] at hbranch
      exact hc.branchLast hblk hkind k f₀ (by omega) (by have := hf₀.index_lt; omega) hf₀ hbranch
    have h₁ := hat hk hi hf hbranch hf₀
    have h₂ := hat hk' hi' hf' hbranch' hf₀'
    obtain rfl : k = k' := by omega
    exact (hstands.unique hstands').2

theorem blocks_take_consecutive_rows_loadAndTest :
    ∃ (c d : Compilation) (order : List Int) (spans : List Span) (stop : Int),
      Runs Optimize.prepare (quietStart loadAndTest) () c ∧ Runs placeAll c () d ∧
      Runs blockOrder c order c ∧ Layout c order spans stop d ∧ 5 ≤ stop := by
  obtain ⟨c, d, hc, hd, hsize⟩ := exists_chain (m := Optimize.prepare) (n := placeAll)
    (s := quietStart loadAndTest) (P := fun _ d => d.table.size = 5) (by decide +kernel)
    (by decide +kernel) (by decide +kernel)
  obtain ⟨_, order, spans, stop, _, horder, _, _, hl, hcut, _⟩ :=
    blocks_take_consecutive_rows (by decide +kernel) hc hd
  have hstop := hcut.1
  rw [hsize] at hstop
  exact ⟨c, d, order, spans, stop, hc, hd, horder, hl, hstop⟩

end BpfLanes.Schedule
