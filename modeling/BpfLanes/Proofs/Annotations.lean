import BpfLanes.Liveness
import BpfLanes.Proofs.BlockParse

/-! # What liveness leaves alone

The search for live registers adds notes to blocks and to operands: which
registers are needed, and where a value is used next. Without these notes, blocks
and instructions stay as they were parsed.
-/

namespace BpfLanes

open Compilation Liveness

variable {words : Array Word} {blk : Block} {g : Digraph} {i : Instr} {Q : Instr → Prop} {b : Int}
  {is : List Instr} {order : List Int} {id : Nat} {o : Operand} {p : Option Int} {α β : Type}

/-- An instruction without what is known about next uses. -/
def Instr.bare (i : Instr) : Instr :=
  { i with inputs := i.inputs.map Operand.bare, output := i.output.map Operand.bare, pending := 0 }

/-- A block without what the search for live registers notes in it. -/
def Block.bare (b : Block) : Block :=
  { b with liveOut := [], liveIn := [], defs := [], uses := [], symbols := [] }

theorem Block.of_bare {x y : Block} (h : x.bare = y.bare) :
    x.kind = y.kind ∧ x.start = y.start ∧ x.len = y.len ∧ x.body = y.body ∧ x.taken = y.taken
      ∧ x.fall = y.fall := by
  simpa [Block.bare] using h

/-- Only notes on blocks and instructions differ from `s`. -/
structure Relabelled (s c : Compilation) : Prop where
  store : c.store.map Instr.bare = s.store.map Instr.bare
  blocks : c.blocks.map Block.bare = s.blocks.map Block.bare
  rest : c = { s with store := c.store, blocks := c.blocks }

theorem Relabelled.refl (s : Compilation) : Relabelled s s :=
  ⟨rfl, rfl, rfl⟩

/-! ## Looking up -/

theorem get_map {f : α → β} {xs : Array α} {i : Int} {a : α} (h : Position.get xs i = .ok a) :
    Position.get (xs.map f) i = .ok (f a) := by
  obtain ⟨k, hk, ha⟩ := Position.get_eq_ok_iff.mp h
  refine Position.get_eq_ok_iff.mpr ⟨k, ?_, ?_⟩
  · rwa [Array.size_map]
  · rw [Array.getElem?_map, ha]
    rfl

theorem map_set_same {f : α → β} {xs ys : Array α} {i : Int} {a : α}
    (hset : Position.set xs i a = .ok ys) (h : Position.get (xs.map f) i = .ok (f a)) :
    ys.map f = xs.map f := by
  obtain ⟨k, hk, rfl⟩ := Position.set_eq_ok_iff.mp hset
  obtain ⟨k', hk', ha⟩ := Position.get_eq_ok_iff.mp h
  grind

variable {liveOut : RegMap} {symbols : Symbols}
variable {s : Compilation}

/-- Block `b` is `blk`, up to what is noted in it. -/
def IsBlock (s : Compilation) (b : Int) (blk : Block) : Prop :=
  Position.get (s.blocks.map Block.bare) b = .ok blk.bare

/-- The instruction with a number, apart from its notes. -/
def IsInstr (s : Compilation) (id : Nat) (i : Instr) : Prop :=
  (s.store.map Instr.bare)[id]? = some i.bare

theorem gives_block : Gives (Relabelled s) (IsBlock s b) (block b) := by
  refine gives_bind (gives_get fun c hc => hc) fun c hc => gives_lift fun blk hblk => ?_
  show Position.get (s.blocks.map Block.bare) b = .ok blk.bare
  rw [← hc.blocks]
  exact get_map hblk

theorem keeps_setBlock (h : IsBlock s b blk) : Keeps (Relabelled s) (setBlock b blk) := by
  refine gives_bind (gives_get fun c hc => hc) fun c hc => ?_
  refine gives_bind (gives_lift fun blocks hset => hset) fun blocks hset => ?_
  refine keeps_set ⟨hc.store, ?_, ?_⟩
  · refine (map_set_same hset ?_).trans hc.blocks
    rwa [hc.blocks]
  · rw [hc.rest]

theorem gives_instr : Gives (Relabelled s) (IsInstr s id) (instr id) := by
  refine gives_bind (gives_get fun c hc => hc) fun c hc => gives_lift fun i hi => ?_
  rw [Position.get_natCast] at hi
  show (s.store.map Instr.bare)[id]? = some i.bare
  rw [← hc.store, Array.getElem?_map, hi]
  rfl

theorem keeps_setInstr (h : IsInstr s id i) : Keeps (Relabelled s) (setInstr id i) := by
  refine keeps_modify fun c hc => ⟨?_, hc.blocks, ?_⟩
  · have hsame : (c.store.map Instr.bare)[id]? = some i.bare := by
      rwa [hc.store]
    rw [Array.map_setIfInBounds, ← hc.store]
    grind
  · rw [hc.rest]

theorem gives_body : Gives (Relabelled s)
    (fun is => is.map Instr.bare
      = blk.body.toList.filterMap fun id => (s.store.map Instr.bare)[id]?) (body blk) := by
  refine gives_bind (gives_get fun c hc => hc) fun c hc => gives_pure ?_
  unfold bodyOf
  rw [List.map_filterMap]
  congr 1
  funext id
  rw [← hc.store, Array.getElem?_map]

/-! ## Between blocks -/

section
variable {I : Compilation → Prop} {R : Int → Block → Prop}
  (hget : ∀ b, Gives I (fun blk => R b blk.bare) (block b))
  (hset : ∀ b blk, R b blk.bare → Keeps I (setBlock b blk))
include hget hset

-- The search between blocks only adds notes to blocks, so it keeps whatever the
-- writing of a block with other notes keeps.
theorem keeps_visit : Keeps I (visit g b) := by
  refine gives_bind (hget b) fun blk hblk => keeps_bind (hset _ _ hblk) fun _ => ?_
  refine keeps_bind (keeps_lift _) fun bs => keeps_bind (keeps_forM fun b' _ => ?_) fun _ => ?_
  · refine keeps_bind keeps_block fun next => gives_bind (hget b) fun blk hblk => ?_
    exact hset _ _ hblk
  · exact keeps_bind keeps_block fun _ => keeps_pure _

theorem keeps_visitAll : Keeps I (visitAll g order) :=
  keeps_foldlM (fun _ _ _ => keeps_bind (keeps_visit hget hset) fun _ => keeps_pure _) _

theorem keeps_settle {fuel : Nat} : Keeps I (settle g order fuel) := by
  induction fuel with
  | zero => exact keeps_pure _
  | succ fuel ih =>
    exact keeps_bind (keeps_visitAll hget hset) fun _ => keeps_ite ih (keeps_pure _)

theorem keeps_acrossBlocks_of : Keeps I acrossBlocks := by
  refine keeps_bind keeps_get fun c => keeps_bind (keeps_forM fun b _ => ?_) fun _ => ?_
  · refine gives_bind (hget b) fun blk hblk => keeps_bind (hset _ _ hblk) fun _ => ?_
    refine keeps_bind keeps_body fun is => keeps_bind (keeps_lift _) fun _ => ?_
    exact hset _ _ hblk
  · refine keeps_bind keeps_flowGraph fun g => keeps_bind (keeps_lift _) fun order => ?_
    exact keeps_settle hget hset

end

theorem keeps_acrossBlocks : Keeps (Relabelled s) acrossBlocks :=
  keeps_acrossBlocks_of (R := fun b x => Position.get (s.blocks.map Block.bare) b = .ok x)
    (fun _ => gives_block) fun _ _ => keeps_setBlock

theorem keeps_acrossBlocks_store :
    Keeps (fun c => c.store = s.store) acrossBlocks := by
  refine keeps_acrossBlocks_of (R := fun _ _ => True) (fun b => ?_) fun b blk _ => ?_
  · exact gives_of_runs keeps_block fun _ _ _ _ _ => trivial
  · refine gives_bind (gives_get fun c hc => hc) fun c hc => ?_
    exact keeps_bind (keeps_lift _) fun _ => keeps_set hc

/-! ## Inside a block -/

theorem markOutput_bare : (markOutput liveOut symbols o).2.bare = o.bare := by
  unfold markOutput
  split
  · split <;> rfl
  · rfl

theorem markInput_bare : (markInput liveOut p symbols o).2.bare = o.bare := by
  unfold markInput
  split
  · dsimp only
    split <;> rfl
  · rfl

theorem markInputs_bare {os : List Operand} :
    (markInputs liveOut p symbols os).2.map Operand.bare = os.map Operand.bare := by
  induction os generalizing symbols with
  | nil => rfl
  | cons o os ih =>
    show (markInput liveOut p symbols o).2.bare
      :: (markInputs liveOut p _ os).2.map Operand.bare = _
    rw [markInput_bare, ih, List.map_cons]

theorem markInstr_bare : (markInstr liveOut symbols i).2.bare = i.bare := by
  unfold markInstr Instr.bare
  cases ho : i.output with
  | none => simp only [markInputs_bare, Option.map_none]
  | some o => simp only [markInputs_bare, Option.map_some, markOutput_bare]

theorem markBody_bare : (markBody liveOut is).2.map Instr.bare = is.map Instr.bare := by
  induction is with
  | nil => rfl
  | cons i is ih =>
    show (markInstr liveOut _ i).2.bare
      :: (markBody liveOut is).2.map Instr.bare = _
    rw [markInstr_bare, ih, List.map_cons]

theorem isInstr_of_zip {ids : List Nat} (hids : ∀ id ∈ ids, id < s.store.size)
    (h : is.map Instr.bare = ids.filterMap fun id => (s.store.map Instr.bare)[id]?) :
    ∀ x ∈ ids.zip is, IsInstr s x.1 x.2 := by
  induction ids generalizing is with
  | nil => simp
  | cons id ids ih =>
    have hid : id < (s.store.map Instr.bare).size := by
      rw [Array.size_map]
      exact hids id List.mem_cons_self
    rw [List.filterMap_cons, Array.getElem?_eq_getElem hid] at h
    cases is with
    | nil => cases h
    | cons i is =>
      obtain ⟨hi, his⟩ := List.cons.inj h
      intro x hx
      rcases List.mem_cons.mp hx with rfl | hx
      · show (s.store.map Instr.bare)[id]? = some i.bare
        rw [Array.getElem?_eq_getElem hid, hi]
      · exact ih (fun y hy => hids y (List.mem_cons_of_mem _ hy)) his x hx

/-- The blocks list only instructions that are on record. -/
def Closed (s : Compilation) : Prop :=
  ∀ (b : Nat) (blk : Block), s.blocks[b]? = some blk → blk.kind = .basic →
    ∀ id ∈ blk.body.toList, id < s.store.size

theorem keeps_markBlock (hs : Closed s) : Keeps (Relabelled s) (markBlock b) := by
  refine gives_bind gives_block fun blk hblk => ?_
  split
  · next hkind =>
    refine gives_bind gives_body fun is his => keeps_bind (keeps_forM fun x hx => ?_) fun _ => ?_
    · refine keeps_setInstr (isInstr_of_zip ?_ (markBody_bare.trans his) x hx)
      obtain ⟨k, _, hk⟩ := Position.get_eq_ok_iff.mp hblk
      rw [Array.getElem?_map, Option.map_eq_some_iff] at hk
      obtain ⟨blk', hblk', hbare⟩ := hk
      obtain ⟨hkind', _, _, hbody, _⟩ := Block.of_bare hbare
      rw [← hbody]
      exact hs k blk' hblk' (hkind'.trans hkind)
    · exact keeps_setBlock hblk
  · exact keeps_pure _

theorem keeps_releaseEntry : Keeps (Relabelled s) releaseEntry := by
  refine keeps_bind keeps_block fun entry => keeps_forM fun x _ => ?_
  refine keeps_bind keeps_placeOf fun p => keeps_bind (keeps_lift _) fun b => ?_
  refine keeps_bind keeps_block fun blk => keeps_forM fun id _ => ?_
  exact gives_bind gives_instr fun i hi => keeps_ite (keeps_setInstr hi) (keeps_pure _)

theorem keeps_liveness (hs : Closed s) : Keeps (Relabelled s) Liveness.analyse := by
  refine keeps_bind keeps_acrossBlocks fun _ => keeps_bind keeps_get fun c => ?_
  exact keeps_bind (keeps_forM fun b _ => keeps_markBlock hs) fun _ => keeps_releaseEntry

/-! ## The blocks of a program -/

theorem Instr.of_bare {x y : Instr} (h : x.bare = y.bare) :
    x.word = y.word ∧ x.text = y.text ∧ x.position = y.position ∧ x.jumpsTo = y.jumpsTo
      ∧ x.inputs.map Operand.register = y.inputs.map Operand.register
      ∧ x.output.map Operand.register = y.output.map Operand.register := by
  simp only [Instr.bare, Instr.mk.injEq] at h
  obtain ⟨hword, htext, hin, hout, hpos, hto, _⟩ := h
  refine ⟨hword, htext, hpos, hto, ?_, ?_⟩
  · have hregs := congrArg (List.map Operand.register) hin
    rwa [List.map_map, List.map_map] at hregs
  · have hregs := congrArg (Option.map Operand.register) hout
    rwa [Option.map_map, Option.map_map] at hregs

theorem Instr.StandsFor.of_bare {p : Nat} {j : Instr} (hi : i.StandsFor words p)
    (h : j.bare = i.bare) : j.StandsFor words p := by
  obtain ⟨hword, _, hpos, _, hin, hout⟩ := Instr.of_bare h
  refine ⟨by rw [hword]; exact hi.word, hpos.trans hi.position, ?_⟩
  obtain ⟨f, hf, hins, houts⟩ := hi.operands
  exact ⟨f, by rw [hword]; exact hf, hin.trans hins, hout.trans houts⟩

namespace Relabelled

variable {c : Compilation}

section
variable (h : Relabelled s c)
include h

theorem block {b : Nat} (hblk : c.blocks[b]? = some blk) :
    ∃ blk', s.blocks[b]? = some blk' ∧ blk'.bare = blk.bare :=
  getElem?_of_map_eq h.blocks.symm hblk

theorem instr (hi : s.store[id]? = some i) :
    ∃ i', c.store[id]? = some i' ∧ i'.bare = i.bare :=
  getElem?_of_map_eq h.store hi

theorem outlines :
    c.blocks.map Flow.outline = s.blocks.map Flow.outline := by
  have hout : ∀ bs : Array Block, bs.map Flow.outline = (bs.map Block.bare).map Flow.outline := by
    intro bs
    rw [Array.map_map]
    rfl
  rw [hout, h.blocks, ← hout]

theorem laid (hs : Flow.Laid Q words s) :
    Flow.Laid (fun _ => True) words c := by
  have hsched : c.schedule = s.schedule := by rw [h.rest]
  have hflow : c.flow = s.flow := by rw [h.rest]
  have hsize : c.blocks.size = s.blocks.size := by
    have := congrArg Array.size h.blocks
    simpa using this
  refine ⟨hs.cut.of_outlines h.outlines, ?_, ?_, ?_, ?_⟩
  · intro b blk hblk hkind
    obtain ⟨blk', hblk', hbare⟩ := h.block hblk
    obtain ⟨hk, hst, hl, hbody, htaken, hfall⟩ := Block.of_bare hbare
    have hold := hs.holds b blk' hblk' (hk.trans hkind)
    refine ⟨?_, ?_, ?_, ?_, ?_, ?_⟩
    · rw [← hbody, ← hl]
      exact hold.size
    · intro k id hid
      rw [← hbody] at hid
      obtain ⟨i, hi, hstands, _⟩ := hold.instr k id hid
      obtain ⟨i', hi', hb⟩ := h.instr hi
      rw [← hst]
      exact ⟨i', hi', hstands.of_bare hb, trivial⟩
    · intro k id i' f hid hi' hf hj
      rw [← hbody] at hid
      obtain ⟨i, hi, _⟩ := hold.instr k id hid
      obtain ⟨i'', hi'', hb⟩ := h.instr hi
      obtain rfl := Option.mem_unique hi' hi''
      obtain ⟨hword, _, _, hto, _⟩ := Instr.of_bare hb
      obtain ⟨t, tblk, hto', ht, htk, hts⟩ := hold.jump k id i f hid hi (hword ▸ hf) hj
      obtain ⟨tblk', ht', hk', hs', _⟩ := Flow.block_of_outlines h.outlines ht
      exact ⟨t, tblk', hto.trans hto', ht', hk'.trans htk, by rw [hs', hts, hst]⟩
    · intro k hk'
      rw [hsched, ← hst]
      exact hold.place k (by rw [hbody]; exact hk')
    · rw [← htaken]
      exact hold.taken
    · rw [← hfall]
      exact hold.fall
  · rw [hsched]
    exact hs.size
  · rw [hsched]
    exact hs.fresh
  · rw [hflow, hsize]
    exact hs.flow

end

end Relabelled

theorem Flow.Laid.closed (hs : Flow.Laid Q words s) : Closed s := by
  intro b blk hblk hkind id hid
  obtain ⟨k, hk⟩ := List.mem_iff_getElem?.mp hid
  rw [Array.getElem?_toList] at hk
  obtain ⟨i, hi, _⟩ := (hs.holds b blk hblk hkind).instr k id hk
  exact lt_size hi

end BpfLanes
