import BpfLanes.Proofs.InPlaceBlocks
import BpfLanes.Proofs.OpenSlots

/-! # Slots that are open to an instruction

The instructions of a block are placed in their order. A slot is open to an
instruction if no earlier one of the block took it, if it is behind what the
instruction reads, and in the right lane where a result is forwarded. The search for
a slot finds open slots only.
-/

namespace BpfLanes

open Compilation BpfLanes.Flow Dependence

variable {f : Fields} {a : Instr} {p : Int} {registers : List Int} {b : Nat}
  {arrival : Option (Int × Int)}

/-! ## Few registers are read -/

theorem Fields.inputs_length_le (f : Fields) : f.inputs.length ≤ 2 := by
  unfold Fields.inputs
  split
  · simp
  split
  · simp
  split
  · simp
  split <;> simp

theorem Instr.reads_iff {r : Int} : a.reads r = true ↔ r ∈ a.inputs.map Operand.register := by
  unfold Instr.reads
  simp

variable {body : List Instr} {r r' r'' : Int} {i i' i'' j : Nat}

theorem Dependence.Feeds.unique (h : Feeds body r i j) (h' : Feeds body r i' j) : i = i' := by
  obtain ⟨x, hx, hw⟩ := h.writer
  obtain ⟨x', hx', hw'⟩ := h'.writer
  rcases Nat.lt_trichotomy i i' with hlt | heq | hlt
  · rw [h.between i' x' hlt h'.lt hx'] at hw'
    cases hw'
  · exact heq
  · rw [h'.between i x hlt h.lt hx] at hw
    cases hw

theorem eq_of_mem_of_length_le_two {xs : List Int} (hlen : xs.length ≤ 2) {x y z : Int}
    (hx : x ∈ xs) (hy : y ∈ xs) (hz : z ∈ xs) : x = y ∨ x = z ∨ y = z := by
  match xs, hlen with
  | [], _ => cases hx
  | [u], _ =>
    simp only [List.mem_singleton] at hx hy
    omega
  | [u, v], _ =>
    simp only [List.mem_cons, List.not_mem_nil, or_false] at hx hy hz
    omega

theorem Dependence.Feeds.few (ha : body[j]? = some a) (hlen : a.inputs.length ≤ 2)
    (h : Feeds body r i j) (h' : Feeds body r' i' j) (h'' : Feeds body r'' i'' j) :
    i = i' ∨ i = i'' ∨ i' = i'' := by
  have hread : ∀ {q : Int} {k : Nat}, Feeds body q k j → q ∈ a.inputs.map Operand.register := by
    intro q k hfeeds
    obtain ⟨x, hx, hreads⟩ := hfeeds.reader
    rw [ha] at hx
    cases hx
    exact Instr.reads_iff.mp hreads
  rcases eq_of_mem_of_length_le_two (by simpa using hlen) (hread h) (hread h') (hread h'') with
    rfl | rfl | rfl
  · exact .inl (h.unique h')
  · exact .inr (.inl (h.unique h''))
  · exact .inr (.inr (h'.unique h''))

/-! ## Values from before the block -/

variable {c d : Compilation}

/-- An instruction of a block wrote one of some registers, which the block is known to
    write. -/
structure WritesOne (c : Compilation) (blk : Block) (registers : List Int) (i : Instr) : Prop where
  basic : blk.kind = .basic
  mem : i ∈ c.bodyOf blk
  writes : ∃ r ∈ registers, blk.defs.has r = true ∧ i.writes r = true

theorem runs_definitionIn {blk : Block} {i : Instr}
    (h : Runs (LastUse.definitionIn blk registers) c (some i) d) : WritesOne c blk registers i := by
  have hlater : ∀ {r : Int} {rest : List Int}, WritesOne c blk rest i →
      WritesOne c blk (r :: rest) i := by
    intro r rest hrest
    obtain ⟨r', hmem, hr'⟩ := hrest.writes
    exact ⟨hrest.basic, hrest.mem, r', List.mem_cons_of_mem r hmem, hr'⟩
  -- the first register that the block writes decides
  induction registers with
  | nil => cases (runs_pure.mp h).1
  | cons r rest ih =>
    unfold LastUse.definitionIn at h
    split at h
    · next htest =>
      unfold LastUse.writerIn at h
      rw [bind_assoc, runs_body_bind] at h
      rw [pure_bind] at h
      split at h
      · next i' hfind =>
        obtain ⟨heq, _⟩ := runs_pure.mp h
        cases heq
        have hmem := List.mem_of_find?_eq_some hfind
        have hwrites := List.find?_some hfind
        simp only [Bool.and_eq_true, decide_eq_true_eq] at htest
        exact ⟨htest.2, List.mem_reverse.mp hmem, r, List.mem_cons_self, htest.1, hwrites⟩
      · exact hlater (ih h)
    · exact hlater (ih h)

theorem runs_definition (h : Runs (LastUse.definition registers b) c (some p) d) :
    ∃ (b' : Nat) (blk : Block) (i : Instr), b' < b ∧ c.blocks[b']? = some blk ∧
      WritesOne c blk registers i ∧ i.position = some p := by
  have hbefore : ∀ n : Nat, Runs (LastUse.definitionBefore registers n) c (some p) d →
      ∃ (b' : Nat) (blk : Block) (i : Instr), b' ≤ n ∧ 0 < b' ∧ c.blocks[b']? = some blk ∧
        WritesOne c blk registers i ∧ i.position = some p := by
    intro n hn
    induction n with
    | zero => cases (runs_pure.mp hn).1
    | succ n ih =>
      unfold LastUse.definitionBefore at hn
      rw [runs_block_bind] at hn
      obtain ⟨blk, hblk, hn⟩ := hn
      obtain ⟨i, c', hi, hrest⟩ := runs_bind.mp hn
      obtain rfl := Placement.looks_definitionIn.eq hi
      cases i with
      | none =>
        obtain ⟨b', blk', i, hle, hrest⟩ := ih hrest
        exact ⟨b', blk', i, by omega, hrest⟩
      | some i =>
        exact ⟨n + 1, blk, i, Nat.le_refl _, by omega, Position.get_natCast.mp hblk,
          runs_definitionIn hi, (runs_pure.mp hrest).1.symm⟩
  unfold LastUse.definition at h
  split at h
  · cases (runs_pure.mp h).1
  · obtain ⟨b', blk, i, hle, hpos, hrest⟩ := hbefore _ h
    exact ⟨b', blk, i, by omega, hrest⟩

theorem Tabled.runs_definition (hc : Tabled c)
    (h : Runs (LastUse.definition registers b) c (some p) d) :
    ∃ (b' : Nat) (blk : Block) (k id : Nat) (i : Instr), b' < b ∧ c.blocks[b']? = some blk ∧
      blk.body[k]? = some id ∧ c.store[id]? = some i ∧ WritesOne c blk registers i ∧
      p = ((blk.start.toNat + k : Nat) : Int) := by
  obtain ⟨b', blk, i, hlt, hblk, hwrites, hpos⟩ := BpfLanes.runs_definition h
  obtain ⟨id, hid, hi⟩ := List.mem_filterMap.mp hwrites.mem
  obtain ⟨k, hk⟩ := Array.mem_iff_getElem?.mp (Array.mem_toList_iff.mp hid)
  obtain ⟨i', hi', hpos'⟩ := hc.instr _ id ⟨b', blk, k, hblk, hwrites.basic, hk, rfl⟩
  obtain rfl := Option.mem_unique hi hi'
  obtain rfl := Option.mem_unique hpos hpos'
  exact ⟨b', blk, k, id, i, hlt, hblk, hk, hi, hwrites, rfl⟩

namespace Schedule

/-! ## Slots that are open to an instruction -/

/-- A slot is open to instruction `j` of a block: no earlier instruction of the block
    stands in it, and it is behind row `top` and behind what `j` reads, in the same lane
    if it comes right after it. If a value arrives from before the block, in the slot
    `arrival`, it is in its lane as well if it comes right after that. -/
structure OpenTo (c d : Compilation) (blk : Block) (top : Int) (arrival : Option (Int × Int))
    (j : Nat) (row lane : Int) : Prop where
  after : top < row
  lanes : 0 ≤ lane ∧ lane < c.target.lanes
  free : ∀ k, k < j → ¬ StandsAt d blk k row lane
  waits : ∀ (r : Int) (i : Nat) (ri li : Int), Feeds (c.bodyOf blk) r i j →
    StandsAt d blk i ri li → ri < row ∧ (row = ri + 1 → lane = li)
  arrives : ∀ ra la, arrival = some (ra, la) → row = ra + 1 → lane = la

variable {Q : Instr → Prop} {words : Array Word} {c₀ e : Compilation} {k : Nat} {blk : Block}
  {g : Digraph} {top row lane lastRow maxRow : Int} {order done rest : List Int} {r r' : Reach}
  {s : Placement.Slot}

theorem OpenTo.congr (h : OpenTo c d blk top arrival j row lane)
    (hsame : ∀ k, k < j → placeIn e blk k = placeIn d blk k) :
    OpenTo c e blk top arrival j row lane := by
  refine ⟨h.after, h.lanes, ?_, ?_, h.arrives⟩
  · intro k hk hs
    exact h.free k hk ((standsAt_congr (hsame k hk)).mp hs)
  · intro r i ri li hfeeds hs
    exact h.waits r i ri li hfeeds ((standsAt_congr (hsame i hfeeds.lt)).mp hs)

/-! ## One instruction -/

theorem Partly.placeIn_some (hready : Ready c₀ b blk)
    (hd : Partly c₀ b blk g lastRow order done r d) (hk : k < blk.body.size) :
    ∃ pl, placeIn d blk k = some pl ∧ pl.block = some (b : Int) := by
  by_cases hmem : (k : Int) ∈ done
  · obtain ⟨pl, _, hpl, _, hblock, _⟩ := hd.placed k hmem
    exact ⟨pl, hpl, hblock⟩
  · obtain ⟨pl, hpl, hblock, _⟩ := hready.unplaced k hk
    refine ⟨pl, ?_, hblock⟩
    rw [← hpl]
    refine hd.others _ fun k' hk' heq => hmem ?_
    obtain rfl : k = k' := by omega
    exact hk'

theorem PlacesAll.mem_done (hplaces : PlacesAll c₀ blk g order)
    (horder : order = done ++ (k : Int) :: rest) {n : Int} : n ∈ done ↔ n ∈ order ∧ n < k := by
  have hascend := hplaces.ascend
  rw [horder, List.pairwise_append] at hascend
  obtain ⟨_, hrest, hlt⟩ := hascend
  constructor
  · intro hn
    exact ⟨by rw [horder]; exact List.mem_append_left _ hn, hlt n hn k (by simp)⟩
  rintro ⟨hn, hnk⟩
  rw [horder] at hn
  rcases List.mem_append.mp hn with hn | hn
  · exact hn
  rcases List.mem_cons.mp hn with rfl | hn
  · omega
  · have := (List.pairwise_cons.mp hrest).1 n hn
    omega

section
variable (hc : Laid Q words c) (ho : Opened c c₀ b blk g lastRow order)
  (hd : Partly c₀ b blk g lastRow order done r d)
include ho hd

theorem Opened.block_eq : d.blocks[b]? = some blk := by
  rw [hd.frame.blocks]
  exact ho.ready.block

theorem Opened.found {n : Int} {d' : Compilation}
    (h : Runs (Placement.find b g lastRow maxRow n) d s d') :
    s.Found d b blk (g.before n) lastRow :=
  (Placement.find_spec (ho.block_eq hd) (ho.edges.entryFirst n) h ho.last hd.tabled.lanesNonneg).2

omit hd in
theorem Opened.lists {n : Nat} : (n : Int) ∈ order ↔ Active c blk n :=
  ho.places.mem_iff_active ho.same

variable (horder : order = done ++ (k : Int) :: rest)
include horder

omit hd in
theorem Opened.index_lt : k < blk.body.size := by
  obtain ⟨k', hk', hlt⟩ := ho.places.next horder
  omega

omit hd in
theorem Opened.active : Active c blk k :=
  ho.lists.mp (by rw [horder]; simp)

theorem Opened.inserted (h : Runs (placeInstr b blk g lastRow r k) d r' e) :
    ∃ id x s₀ s, Inserted d e b blk g lastRow r r' k id x s₀ s :=
  ⟨_, runs_placeInstr hd.tabled (ho.block_eq hd) ho.basic
    (Array.getElem?_eq_getElem (ho.index_lt horder)) ho.last (ho.edges.entryFirst k) h⟩

theorem Opened.stands {id : Nat} {x : Compilation} {s₀ : Placement.Slot}
    (h : Inserted d e b blk g lastRow r r' k id x s₀ s) : StandsAt e blk k s.row s.lane := by
  obtain ⟨pl, hpl, _⟩ := hd.placeIn_some ho.ready (ho.index_lt horder)
  exact ⟨_, placeIn_put h.put ((placeIn_of_renamed h.renamed k).trans hpl), rfl, rfl⟩

theorem Opened.filled {id : Nat} (h : Table.entry d.table row lane = some (some id)) :
    row ≤ lastRow ∨ ∃ k' : Nat, k' < k ∧ blk.body[k']? = some id ∧ StandsAt d blk k' row lane := by
  obtain ⟨q, pl, hnum, hpl, hrow, hlane⟩ := (hd.tabled.slot row lane id).mp h
  by_cases hown : ∃ k' : Nat, (k' : Int) ∈ done ∧ q = blk.start.toNat + k'
  · obtain ⟨k', hk', rfl⟩ := hown
    obtain ⟨hmem, hlt⟩ := (ho.places.mem_done horder).mp hk'
    have hsize := ((ho.places.mem k').mp hmem).2.1
    have hid := Array.getElem?_eq_getElem (by omega : k' < blk.body.size)
    obtain rfl := hd.tabled.unique _ _ _ hnum ⟨b, blk, k', ho.block_eq hd, ho.basic, hid, rfl⟩
    exact .inr ⟨k', by omega, hid, pl, hpl, hrow, hlane⟩
  · rw [hd.others q fun k hk heq => hown ⟨k, hk, heq⟩] at hpl
    rw [hd.frame.blocks] at hnum
    exact .inl (ho.behind row lane id
      ((ho.ready.tabled.slot row lane id).mpr ⟨q, pl, hnum, hpl, hrow, hlane⟩))

theorem Opened.free_of_untaken (ht : Table.Shaped c.target.lanes d.table) (hafter : lastRow < row)
    (hlanes : 0 ≤ lane ∧ lane < c.target.lanes)
    (hfree : ∀ k', k' < k → ¬ StandsAt d blk k' row lane) (hs : s.Free d.table) (hle : row ≤ s.row) :
    Placement.Slot.Free d.table { lane, row } := by
  have hlast := ho.last
  have hsome : (Table.entry d.table row lane).isSome = true :=
    ht.isSome_of_le hs.isSome (by omega) hle hlanes
  obtain ⟨x, hx⟩ := Option.isSome_iff_exists.mp hsome
  cases x with
  | none => exact hx
  | some id =>
    rcases ho.filled hd horder hx with hrow | ⟨k', hk', _, hstands⟩
    · omega
    · exact absurd hstands (hfree k' hk')

include hc

omit hd in
theorem Opened.feeds_of_mem (hp : p ∈ g.before k) (hne : p ≠ -1) :
    ∃ (reg : Int) (i : Nat), p = i ∧ Feeds (c.bodyOf blk) reg i k := by
  refine ho.edges.inner p k ?_ (Digraph.mem_before.mp hp) hne
  rw [hc.bodyOf_length ho.block ho.basic]
  exact ho.index_lt horder

omit hd in
theorem Opened.inputs_length_le (ha : (c.bodyOf blk)[k]? = some a) : a.inputs.length ≤ 2 := by
  obtain ⟨id, a', _, hid, ha', hstands, _⟩ :=
    hc.standsFor_index ho.block ho.basic (ho.index_lt horder)
  obtain ⟨f, _, hin, _⟩ := hstands.operands
  rw [hc.bodyOf_getElem? ho.block ho.basic, hid] at ha
  obtain rfl := Option.mem_unique ha' ha
  have hle := f.inputs_length_le
  rwa [← hin, List.length_map] at hle

theorem Opened.feeder {reg : Int} {i : Nat} (hfeeds : Feeds (c.bodyOf blk) reg i k) :
    i < blk.body.size ∧ ∃ pl lane, placeIn d blk i = some pl ∧ pl.lane = some lane ∧
      pl.block = some (b : Int) ∧ lastRow < pl.time := by
  obtain ⟨hk, hact, _⟩ := hc.active_of_feeds ho.block ho.basic hfeeds
  have hlt := hfeeds.lt
  have hi := ho.lists.mpr hact
  obtain ⟨pl, lane, hpl, hlane, hblock, hlow, _⟩ :=
    hd.placed i ((ho.places.mem_done horder).mpr ⟨hi, by omega⟩)
  exact ⟨by omega, pl, lane, hpl, hlane, hblock, hlow⟩

theorem Opened.awaited : Placement.Awaited d b blk lastRow (g.before k) := by
  have hblk := ho.block_eq hd
  refine ⟨ho.edges.entryFirst k, ho.edges.simple.nodup_before k, ?_, ?_, ?_⟩
  · -- an instruction has two inputs at most, so it is fed by two others at most
    intro p hp p' hp' p'' hp'' hne hne' hne''
    obtain ⟨reg, i, rfl, hi⟩ := ho.feeds_of_mem hc horder hp hne
    obtain ⟨reg', i', rfl, hi'⟩ := ho.feeds_of_mem hc horder hp' hne'
    obtain ⟨reg'', i'', rfl, hi''⟩ := ho.feeds_of_mem hc horder hp'' hne''
    obtain ⟨a, ha, _⟩ := hi.reader
    rcases Feeds.few ha (ho.inputs_length_le hc horder ha) hi hi' hi'' with rfl | rfl | rfl
    · exact .inl rfl
    · exact .inr (.inl rfl)
    · exact .inr (.inr rfl)
  · intro p hp hne q pl hplace
    obtain ⟨reg, i, rfl, hi⟩ := ho.feeds_of_mem hc horder hp hne
    obtain ⟨hlt, pl', _, hpl', _, hblock, hlow⟩ := ho.feeder hc hd horder hi
    obtain ⟨_, hpl⟩ := (placeAt_iff hd.tabled hblk ho.basic hlt).mp hplace
    rw [hpl'] at hpl
    cases hpl
    exact ⟨hlow, hblock⟩
  · -- two instructions in one row stand in different lanes
    intro p hp p' hp' hne hne' hdiffer q q' pl pl' hplace hplace' htime heq
    obtain ⟨reg, i, rfl, hi⟩ := ho.feeds_of_mem hc horder hp hne
    obtain ⟨reg', i', rfl, hi'⟩ := ho.feeds_of_mem hc horder hp' hne'
    obtain ⟨hlt, pl₁, lane, hpl₁, hlane, _⟩ := ho.feeder hc hd horder hi
    obtain ⟨hlt', _⟩ := ho.feeder hc hd horder hi'
    obtain ⟨_, hpl⟩ := (placeAt_iff hd.tabled hblk ho.basic hlt).mp hplace
    obtain ⟨_, hpl'⟩ := (placeAt_iff hd.tabled hblk ho.basic hlt').mp hplace'
    obtain rfl := Option.mem_unique hpl₁ hpl
    have := hd.tabled.place_inj hpl₁ hpl' htime hlane (heq.symm.trans hlane)
    omega

theorem Opened.open_of_found (ht : Table.Shaped c.target.lanes d.table)
    (hs : s.Found d b blk (g.before k) lastRow)
    (harrives : ∀ ra la, arrival = some (ra, la) → s.row = ra + 1 → s.lane = la) :
    OpenTo c d blk lastRow arrival k s.row s.lane := by
  have hblk := ho.block_eq hd
  have hfree : Table.entry d.table s.row s.lane = some none := hs.free
  refine ⟨hs.after, ⟨hs.free.lane_nonneg, ht.lane_lt hs.free.isSome⟩, ?_, ?_, harrives⟩
  · rintro k' hk' ⟨pl, hpl, hrow, hlane⟩
    obtain ⟨id, _, hslot⟩ := hd.tabled.placed_slot hpl hlane
    rw [hrow, hfree] at hslot
    cases hslot
  · rintro reg i _ li hfeeds ⟨pl, hpl, rfl, hlane⟩
    obtain ⟨hlt, pl', lane, hpl', _, hblock, hlow⟩ := ho.feeder hc hd horder hfeeds
    have hlast := ho.last
    rw [hpl'] at hpl
    cases hpl
    have hplace := (placeAt_iff hd.tabled hblk ho.basic hlt).mpr ⟨rfl, hpl'⟩
    obtain ⟨htime, hsame⟩ :=
      hs.waits i (Digraph.mem_before.mpr (ho.edges.feeds hfeeds)) (by omega) _ _ hplace
    refine ⟨htime, fun heq => ?_⟩
    have hl := hsame heq (by omega) hblock
    rw [hlane] at hl
    exact (Option.some.inj hl).symm

theorem Opened.found_of_open (ht : Table.Shaped c.target.lanes d.table)
    (hopen : OpenTo c d blk lastRow arrival k row lane) (hs : s.Free d.table) (hle : row ≤ s.row) :
    Placement.Slot.Found d b blk (g.before k) lastRow { lane, row } := by
  have hblk := ho.block_eq hd
  have hfree := ho.free_of_untaken hd horder ht hopen.after hopen.lanes hopen.free hs hle
  refine ⟨hfree, hopen.after, ?_⟩
  intro p hp hne q pl hplace
  obtain ⟨reg, i, rfl, hfeeds⟩ := ho.feeds_of_mem hc horder hp hne
  obtain ⟨hlt, pl', lane', hpl', hlane', _⟩ := ho.feeder hc hd horder hfeeds
  obtain ⟨_, hpl⟩ := (placeAt_iff hd.tabled hblk ho.basic hlt).mp hplace
  obtain rfl := Option.mem_unique hpl' hpl
  obtain ⟨htime, hsame⟩ := hopen.waits reg i pl'.time lane' hfeeds ⟨pl', hpl', rfl, hlane'⟩
  refine ⟨htime, fun heq _ _ => ?_⟩
  rw [hlane', hsame heq]

omit hc horder in
theorem Opened.fieldsAt_branch (hf : FieldsAt c blk k f) :
    ∃ f', FieldsAt d blk k f' ∧ f'.isBranch = f.isBranch := by
  obtain ⟨f', hf', hopcode⟩ := (ho.same.fieldsAt.mpr hf).renamed hd.store
  refine ⟨f', hf', ?_⟩
  unfold Fields.isBranch
  rw [hopcode]

end
end Schedule
end BpfLanes
