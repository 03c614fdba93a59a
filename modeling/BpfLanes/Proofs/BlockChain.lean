import BpfLanes.Proofs.BlockParse

/-! # Blocks end to end

A program whose words have fields and whose jumps stay inside it is always cut into
blocks. These lie end to end: where a basic block ends the next one starts, or the
program ends. Between two of them stands the block of a helper if the first one
ends in a call.
-/

namespace BpfLanes.Flow

open Compilation
open Optimize (Uncut)

variable {f : Fields} {start : Int} {starts : List Int} {p : Nat} {word : Word}

variable {words : Array Word} {c d s : Compilation} {blocks : List Block} {blocks' : Array Block}

/-- A program that can be cut into blocks: every word has fields, and every jump leads
    to a position of the program. -/
structure WellFormed (words : Array Word) : Prop where
  decodes : ∀ p, p < words.size → ∃ f, WordAt words p f
  inside : ∀ p f, WordAt words p f → f.isJump = true →
    0 ≤ (p : Int) + f.offset + 1 ∧ (p : Int) + f.offset + 1 < words.size

/-- Whether a word has fields and, if it is a jump, leads into a program of `size` words. -/
def staysInside (size p : Nat) (w : Word) : Bool :=
  match Fields.decode w with
  | .ok f => !f.isJump || decide (0 ≤ (p : Int) + f.offset + 1 ∧ (p : Int) + f.offset + 1 < size)
  | .error _ => false

theorem staysInside_iff {size : Nat} {w : Word} :
    staysInside size p w = true ↔ ∃ f, Fields.decode w = .ok f ∧ (f.isJump = true →
      0 ≤ (p : Int) + f.offset + 1 ∧ (p : Int) + f.offset + 1 < size) := by
  unfold staysInside
  cases hf : Fields.decode w with
  | error e => simp
  | ok f =>
    simp only [Except.ok.injEq, exists_eq_left', Bool.or_eq_true, Bool.not_eq_true',
      decide_eq_true_eq]
    cases f.isJump <;> simp

theorem wellFormed_iff :
    WellFormed words ↔ ∀ (p : Nat) (hp : p < words.size),
      staysInside words.size p words[p] = true := by
  constructor
  · intro h p hp
    obtain ⟨f, w, hw, hf⟩ := h.decodes p hp
    obtain ⟨_, rfl⟩ := Array.getElem?_eq_some_iff.mp hw
    exact staysInside_iff.mpr ⟨f, hf, h.inside p f ⟨_, hw, hf⟩⟩
  · intro h
    constructor
    · intro p hp
      obtain ⟨f, hf, _⟩ := staysInside_iff.mp (h p hp)
      exact ⟨f, words[p], Array.getElem?_eq_getElem hp, hf⟩
    · intro p f hpf hj
      obtain ⟨f', hf', hin⟩ := staysInside_iff.mp (h p hpf.lt)
      have heq : f = f' := hpf.unique ⟨_, Array.getElem?_eq_getElem hpf.lt, hf'⟩
      subst heq
      exact hin hj

instance (words : Array Word) : Decidable (WellFormed words) :=
  decidable_of_iff _ wellFormed_iff.symm

theorem WellFormed.noJumpBefore (h : WellFormed words) : NoJumpBefore words := by
  intro p w f hw hf hj
  exact (h.inside p f ⟨w, hw, hf⟩ hj).1

/-- A program is cut somewhere: it has a jump, or a call or an exit that is not its last
    instruction. -/
def HasLeader (words : Array Word) : Prop :=
  ∃ p f, WordAt words p f ∧ (f.isJump = true ∨ f.isBranch = true ∧ p + 1 < words.size)

theorem Cuts.ne_nil (h : Cuts words starts) (hlead : HasLeader words) : starts ≠ [] := by
  obtain ⟨p, f, ⟨w, hw, hf⟩, hj | ⟨hb, hp⟩⟩ := hlead
  · exact List.ne_nil_of_mem (h.target p w f hw hf hj)
  · exact List.ne_nil_of_mem (h.branch p w f hw hf hb hp)

/-! ## Finding the branches -/

theorem findBranch_runs {position : Int} (hf : Fields.decode word = .ok f)
    (hin : f.isJump = true → position + f.offset + 1 < c.words.size) :
    Runs (findBranch position word) c ()
      { c with branches := noteBranch position f c.branches } := by
  unfold findBranch modifyBranches noteBranch
  simp only [runs_lift_bind]
  refine ⟨f, hf, ?_⟩
  by_cases hj : f.isJump = true
  · have hlt : ¬ (c.words.size : Int) ≤ position + f.offset + 1 := by
      have := hin hj
      omega
    simp [hj, hlt]
  · by_cases hcall : f.isCall = true
    · simp [hj, hcall]
    · by_cases hexit : f.isExit = true
      · simp [hj, hcall, hexit]
      · simp [hj, hcall, hexit]

theorem findBranches_runs (hw : WellFormed c.words) : ∃ d, Runs findBranches c () d := by
  have hloop := forM_runs (f := fun x : Word × Nat => findBranch x.2 x.1)
    (l := c.words.toList.zipIdx) (fun _ (t : Compilation) => t.words = c.words) (s := c) rfl ?_
  · obtain ⟨d, hd, _⟩ := hloop
    exact ⟨d, hd⟩
  intro k x t hx ht
  obtain ⟨w, i⟩ := x
  rw [List.getElem?_zipIdx, Option.map_eq_some_iff] at hx
  obtain ⟨w', hw', heq⟩ := hx
  obtain ⟨rfl, rfl⟩ : w' = w ∧ k = i := by simpa using heq
  have hget : c.words[k]? = some w' := by simpa using hw'
  obtain ⟨f, v, hv, hf⟩ := hw.decodes k (lt_size hget)
  rw [hget] at hv
  cases hv
  refine ⟨_, findBranch_runs hf ?_, ht⟩
  intro hj
  rw [ht]
  exact (hw.inside k f ⟨w', hget, hf⟩ hj).2

/-! ## Cutting -/

theorem pushFrom_runs (hw : WellFormed c.words) (hasc : starts.Pairwise (· < ·))
    (hin : ∀ x ∈ starts, 0 ≤ x ∧ x < c.words.size) : ∃ d, Runs (pushFrom starts) c () d := by
  induction starts generalizing c with
  | nil => exact ⟨c, runs_pure.mpr ⟨rfl, rfl⟩⟩
  | cons x rest ih =>
    obtain ⟨hx, hrest⟩ := List.pairwise_cons.mp hasc
    obtain ⟨hx0, hxn⟩ := hin x List.mem_cons_self
    have hstop : x < rest.headD c.words.size ∧ rest.headD c.words.size ≤ c.words.size := by
      cases rest with
      | nil => exact ⟨hxn, Int.le_refl _⟩
      | cons z zs => exact ⟨hx z List.mem_cons_self, Int.le_of_lt (hin z (by simp)).2⟩
    -- the last word of the block decides whether a helper follows
    obtain ⟨f, w, hget, hf⟩ := hw.decodes (rest.headD (c.words.size : Int) - 1).toNat (by omega)
    have hpos : Position.get c.words (rest.headD (c.words.size : Int) - 1) = .ok w :=
      (Position.get_of_nonneg (by omega)).mpr hget
    rw [pushFrom_cons]
    simp only [pushBlock, runs_get_bind, runs_modify_bind]
    simp only [runs_lift_bind, hpos, hf, Except.ok.injEq, exists_eq_left']
    have hnext : ∀ blocks : Array Block, ∃ d, Runs (pushFrom rest) { c with blocks } () d := by
      intro blocks
      exact ih (c := { c with blocks }) hw hrest fun y hy => hin y (List.mem_cons_of_mem _ hy)
    split
    · simp only [runs_modify_bind]
      exact hnext _
    · exact hnext _

theorem findBlocks_runs (hw : WellFormed c.words)
    (hcuts : Cuts c.words (leaders c.words.size c.branches)) : ∃ d, Runs findBlocks c () d := by
  have hrest : ∀ blocks : Array Block, ∃ d, Runs (do
      pushFrom (leaders c.words.size c.branches)
      pushBlock { kind := .exit, start := c.words.size, len := 0 }) { c with blocks } () d := by
    intro blocks
    obtain ⟨d, hrun⟩ := pushFrom_runs (c := { c with blocks }) hw hcuts.ascending hcuts.inside
    exact ⟨_, runs_bind.mpr ⟨(), d, hrun, runs_modify.mpr rfl⟩⟩
  unfold findBlocks
  simp only [runs_get_bind]
  split
  · split
    · simp only [pushBlock, runs_modify_bind]
      exact hrest _
    · exact hrest c.blocks
  · exact hrest c.blocks

/-! ## Parsing -/

variable {b k : Nat} {blk : Block} {middle : List Block}

theorem parse_ok (hf : Fields.decode word = .ok f) (text : String) (p : Int) :
    ∃ i, Instr.parse word text p = .ok i :=
  ⟨_, bind_eq_ok.mpr ⟨f, hf, rfl⟩⟩

theorem parseInto_runs (hb : b < c.blocks.size) (hword : WordAt c.words p f)
    (htext : p < c.texts.size) (hplace : p < c.schedule.size) :
    ∃ d, Runs (parseInto b p) c () d := by
  obtain ⟨w, hw, hf⟩ := hword
  obtain ⟨i, hi⟩ := parse_ok hf c.texts[p] p
  unfold parseInto
  apply Exists.intro
  simp only [runs_get_bind]
  simp only [runs_lift_bind, Position.get_natCast]
  refine ⟨w, hw, c.texts[p], Array.getElem?_eq_getElem htext, i, hi, ?_⟩
  simp only [runs_modify_bind, runs_block_bind, runs_setBlock_bind, Position.get_natCast]
  refine ⟨c.blocks[b], Array.getElem?_eq_getElem hb, _, Position.set_natCast.mpr ⟨hb, rfl⟩, ?_⟩
  exact runs_setPlace.mpr ⟨p, c.schedule[p], _, rfl,
    Position.get_natCast.mpr (Array.getElem?_eq_getElem hplace),
    Position.set_natCast.mpr ⟨hplace, rfl⟩, rfl⟩

section
variable (hwf : WellFormed c.words) (htexts : c.texts.size = c.words.size)
  (hsched : c.schedule.size = c.words.size)
include hwf htexts hsched

theorem parseBody_runs (hblk : c.blocks[b]? = some blk) (hstart : 0 ≤ blk.start)
    (hstop : blk.stop ≤ c.words.size) :
    ∃ d, Runs ((List.range blk.len.toNat).forM fun (n : Nat) => parseInto b (blk.start + n))
      c () d := by
  have hb := lt_size hblk
  have hloop := forM_runs (f := fun (n : Nat) => parseInto b (blk.start + n))
    (l := List.range blk.len.toNat) (fun m t => Filled c b blk.start.toNat blk m t)
    (Filled.zero hblk) ?_
  · obtain ⟨d, hd, _⟩ := hloop
    exact ⟨d, hd⟩
  intro m n t hn ht
  obtain ⟨hm, rfl⟩ := List.getElem?_eq_some_iff.mp hn
  rw [List.length_range] at hm
  rw [List.getElem_range]
  have hwords : t.words = c.words := by rw [ht.rest]
  have htext : t.texts = c.texts := by rw [ht.rest]
  unfold Block.stop at hstop
  have hp : blk.start.toNat + m < c.words.size := by omega
  obtain ⟨f, hf⟩ := hwf.decodes _ hp
  have hcast : blk.start + (m : Int) = ((blk.start.toNat + m : Nat) : Int) := by omega
  have hrun : ∃ d, Runs (parseInto b ((blk.start.toNat + m : Nat) : Int)) t () d := by
    apply parseInto_runs
    · rwa [ht.blocks, Array.size_setIfInBounds]
    · rwa [hwords]
    · rwa [htext, htexts]
    · rwa [ht.places, hsched]
  obtain ⟨d, hd⟩ := hrun
  refine ⟨d, ?_, ht.step hblk hd⟩
  rwa [hcast]

theorem Blank.parseBlocks_runs (hc : Blank middle c) :
    ∃ d, Runs parseBlocks c () d := by
  have hloop := forM_runs (f := fun (k : Nat) => parseBlock (k + 1))
    (l := List.range middle.length) (s := c) (fun k t => ParsedTo c k t) hc.parsedTo_zero ?_
  · obtain ⟨d, hrun, -⟩ := hloop
    exact ⟨d, hc.parseBlocks_eq.mpr hrun⟩
  intro k n t hn ht
  obtain ⟨hk, rfl⟩ := List.getElem?_eq_some_iff.mp hn
  rw [List.length_range] at hk
  rw [List.getElem_range]
  have hblk := hc.getElem?_middle hk
  have htblk := (ht.later (k + 1) (by omega)).trans hblk
  have hwords : t.words = c.words := by rw [ht.rest]
  have htext : t.texts = c.texts := by rw [ht.rest]
  -- a block that is not basic has nothing to parse
  have hbody : ∃ e, Runs ((List.range middle[k].len.toNat).forM fun (n : Nat) =>
      parseInto ((k + 1 : Nat) : Int) (middle[k].start + n)) t () e := by
    rcases hc.basic_or_unfilled hblk with hkind | ⟨hlen, -⟩
    · obtain ⟨hstart, -, hstop⟩ := hc.cut.span _ _ hblk hkind
      exact parseBody_runs (hwords ▸ hwf) (by rw [htext, hwords, htexts])
        (by rw [ht.size, hwords, hsched]) htblk hstart (hwords ▸ hstop)
    · rw [hlen]
      exact ⟨t, runs_pure.mpr ⟨rfl, rfl⟩⟩
  obtain ⟨e, hrun⟩ := hbody
  exact ht.parseBlock_runs hc hblk (List.getElem_mem hk) hrun

end

/-! ## Neighbours -/

/-- Blocks that start where the others end: a basic one, or the exit behind the last
    word. -/
def Follows (size : Nat) (blk next : Block) : Prop :=
  next.start = blk.stop ∧ (next.kind = .basic ∨ next.kind = .exit ∧ next.start = size)

/-- Position `p` lies in a basic block. -/
def InBlock (blocks : Array Block) (p : Nat) : Prop :=
  ∃ (b : Nat) (blk : Block), blocks[b]? = some blk ∧ blk.kind = .basic ∧ blk.start ≤ p
    ∧ p < blk.stop

theorem InBlock.of_outlines {blocks : Array Block} (h : blocks'.map outline = blocks.map outline)
    (hp : InBlock blocks p) : InBlock blocks' p := by
  obtain ⟨b, blk, hblk, hkind, hlow, hhigh⟩ := hp
  obtain ⟨blk', hblk', hk, hs, hl⟩ := block_of_outlines h hblk
  refine ⟨b, blk', hblk', hk.trans hkind, ?_, ?_⟩
  · rwa [hs]
  · unfold Block.stop at hhigh ⊢
    rwa [hs, hl]

/-- The blocks of a program lie end to end and leave no position out. -/
structure EndToEnd (words : Array Word) (blocks : Array Block) : Prop where
  next : ∀ (b : Nat) (blk : Block), blocks[b]? = some blk → blk.kind = .basic →
    ∃ next, Follows words.size blk next ∧ (blocks[b + 1]? = some next
      ∨ ∃ helper f, blocks[b + 1]? = some helper ∧ helper.kind = .call ∧ blocks[b + 2]? = some next
          ∧ WordAt words (blk.stop - 1).toNat f ∧ f.isCall = true)
  covers : ∀ p, p < words.size → InBlock blocks p

theorem Chain.head (h : Chain words start blocks) :
    ∃ blk : Block, blocks[0]? = some blk ∧ blk.start = start
      ∧ (blk.kind = .basic ∨ blk.kind = .exit ∧ blk.start = words.size) := by
  cases h with
  | exit => exact ⟨_, rfl, rfl, .inr ⟨rfl, rfl⟩⟩
  | basic _ _ _ => exact ⟨_, rfl, rfl, .inl rfl⟩
  | call _ _ _ _ _ => exact ⟨_, rfl, rfl, .inl rfl⟩

theorem Chain.next (h : Chain words start blocks) {b : Nat} {blk : Block}
    (hb : blocks[b]? = some blk) (hkind : blk.kind = .basic) :
    ∃ next, Follows words.size blk next ∧ (blocks[b + 1]? = some next
      ∨ ∃ helper f, blocks[b + 1]? = some helper ∧ helper.kind = .call ∧ blocks[b + 2]? = some next
          ∧ WordAt words (blk.stop - 1).toNat f ∧ f.isCall = true) := by
  induction h generalizing b with
  | exit =>
    cases b with
    | zero =>
      cases hb
      cases hkind
    | succ b => cases hb
  | @basic start stop rest hlow hlt hrest ih =>
    cases b with
    | succ b => exact ih hb
    | zero =>
      cases hb
      obtain ⟨next, hnext, hstart, hor⟩ := hrest.head
      exact ⟨next, ⟨by rw [cutBlock_stop]; exact hstart, hor⟩, .inl hnext⟩
  | @call start stop rest f hlow hlt hword hcall hrest ih =>
    rcases b with _ | _ | b
    · cases hb
      obtain ⟨next, hnext, hstart, hor⟩ := hrest.head
      refine ⟨next, ⟨by rw [cutBlock_stop]; exact hstart, hor⟩, .inr ⟨_, f, rfl, rfl, hnext, ?_⟩⟩
      rw [cutBlock_stop]
      exact ⟨hword, hcall⟩
    · cases hb
      cases hkind
    · exact ih hb

theorem Chain.covers (h : Chain words start blocks) (hlow : start ≤ p) (hp : p < words.size) :
    ∃ (b : Nat) (blk : Block), blocks[b]? = some blk ∧ blk.kind = .basic ∧ blk.start ≤ p
      ∧ p < blk.stop := by
  induction h with
  | exit => omega
  | @basic start stop rest _ hlt hrest ih =>
    by_cases hin : (p : Int) < stop
    · exact ⟨0, cutBlock start stop, rfl, rfl, hlow, by rw [cutBlock_stop]; exact hin⟩
    · obtain ⟨b, blk, hb, hrest⟩ := ih (by omega)
      exact ⟨b + 1, blk, hb, hrest⟩
  | @call start stop rest f _ hlt _ _ hrest ih =>
    by_cases hin : (p : Int) < stop
    · exact ⟨0, cutBlock start stop, rfl, rfl, hlow, by rw [cutBlock_stop]; exact hin⟩
    · obtain ⟨b, blk, hb, hrest⟩ := ih (by omega)
      exact ⟨b + 2, blk, hb, hrest⟩

theorem Chain.endToEnd (h : Chain words 0 blocks) :
    EndToEnd words (Block.entry :: blocks).toArray := by
  constructor
  · intro b blk hb hkind
    simp only [List.getElem?_toArray] at hb ⊢
    cases b with
    | zero =>
      cases hb
      cases hkind
    | succ b => exact h.next hb hkind
  · intro p hp
    obtain ⟨b, blk, hb, hrest⟩ := h.covers (Int.natCast_nonneg p) hp
    exact ⟨b + 1, blk, by simpa using hb, hrest⟩

theorem EndToEnd.of_outlines {blocks : Array Block} (h : blocks'.map outline = blocks.map outline)
    (hb : EndToEnd words blocks) : EndToEnd words blocks' := by
  constructor
  · intro b blk hblk hkind
    obtain ⟨old, hold, hk, hs, hl⟩ := block_of_outlines h.symm hblk
    have hstop : old.stop = blk.stop := by
      unfold Block.stop
      rw [hs, hl]
    obtain ⟨next, ⟨hstart, hor⟩, hnext⟩ := hb.next b old hold (hk.trans hkind)
    -- the neighbour keeps its kind and its place
    have hmoved : ∀ n : Nat, blocks[n]? = some next → ∃ next', blocks'[n]? = some next'
        ∧ Follows words.size blk next' := by
      intro n hn
      obtain ⟨next', hn', hk', hs', _⟩ := block_of_outlines h hn
      refine ⟨next', hn', ?_⟩
      unfold Follows
      rw [hk', hs', ← hstop]
      exact ⟨hstart, hor⟩
    rcases hnext with hnext | ⟨helper, f, hhelper, hcall, hnext, hword⟩
    · obtain ⟨next', hn', hfollows⟩ := hmoved _ hnext
      exact ⟨next', hfollows, .inl hn'⟩
    · obtain ⟨next', hn', hfollows⟩ := hmoved _ hnext
      obtain ⟨helper', hh', hkh, _⟩ := block_of_outlines h hhelper
      refine ⟨next', hfollows, .inr ⟨helper', f, hh', hkh.trans hcall, hn', ?_⟩⟩
      rwa [← hstop]
  · intro p hp
    exact (hb.covers p hp).of_outlines h

/-! ## Programs that are not cut -/

theorem hasLeader_of_mem_leaders {b : Branches} (h : Listed words words.size b) {x : Int}
    (hx : x ∈ leaders words.size b) : HasLeader words := by
  have hmem := ((foldl_insertSorted _ [] List.Pairwise.nil).2 x).mp hx
  rcases hmem with hmem | hmem
  · cases hmem
  rcases List.mem_append.mp hmem with hmem | hmem
  · obtain ⟨y, hy, -⟩ := List.mem_map.mp hmem
    rcases List.mem_append.mp hy with hy | hy
    · obtain ⟨p, f, -, hw, hj⟩ := h.jumps y hy
      exact ⟨p, f, hw, .inl hj⟩
    · -- a call or an exit that is not the last instruction
      obtain ⟨hy, hne⟩ := List.mem_filter.mp hy
      obtain ⟨p, f, hp, hw, rfl, hb⟩ := (h.marks y).mp (.inr (List.mem_append.mp hy))
      refine ⟨p, f, hw, .inr ⟨hb, ?_⟩⟩
      have : (p : Int) ≠ (words.size : Int) - 1 := by simpa using hne
      omega
  · obtain ⟨p, f, -, hw, -, hj⟩ := (h.targets x).mp hmem
    exact ⟨p, f, hw, .inl hj⟩

/-- Either every position of a program lies in a basic block, or none does because
    the program has no leader. -/
def Covered (words : Array Word) (blocks : Array Block) : Prop :=
  ∀ p, p < words.size → (InBlock blocks p ↔ HasLeader words)

theorem Covered.of_outlines {blocks : Array Block} (h : blocks'.map outline = blocks.map outline)
    (hc : Covered words blocks) : Covered words blocks' := by
  intro p hp
  rw [← hc p hp]
  constructor
  · intro hin
    exact hin.of_outlines h.symm
  · intro hin
    exact hin.of_outlines h

theorem CutOf.covered (h : CutOf s c middle) (hs : Uncut s) :
    Covered s.words c.blocks := by
  have hblocks : c.blocks = (Block.entry :: (middle ++ [exitAt s.words.size])).toArray := by
    rw [h.rest]
  have hchain := h.chain
  intro p hp
  split at hchain
  · next hnone =>
    -- nothing but the entry and the exit
    constructor
    · rintro ⟨b, blk, hblk, hkind, -⟩
      rw [hblocks] at hblk
      have hmem := mem_middle (List.mem_of_getElem? (List.getElem?_toArray ▸ hblk)) hkind
      rw [hchain] at hmem
      cases hmem
    · intro hlead
      exact absurd hnone ((leaders_cuts hs.inside h.listed).ne_nil hlead)
  · next hsome =>
    obtain ⟨x, hx⟩ := List.exists_mem_of_ne_nil _ hsome
    refine iff_of_true ?_ (hasLeader_of_mem_leaders h.listed hx)
    rw [hblocks]
    exact hchain.endToEnd.covers p hp

theorem covered_of_analyse {u : Unit} (hs : Uncut s) (h : Runs analyse s u d) :
    Covered s.words d.blocks := by
  rw [analyse_eq] at h
  obtain ⟨_, t, hr, hg⟩ := runs_bind.mp h
  obtain ⟨_, _, rfl⟩ := runs_buildGraph hg
  obtain ⟨c, middle, hc, hparsed⟩ := cutOf_cutAndParse hs hr
  exact (hc.covered hs).of_outlines hparsed.outlines

end BpfLanes.Flow
