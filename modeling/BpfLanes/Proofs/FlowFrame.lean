import BpfLanes.Proofs.BlockParse
import BpfLanes.Proofs.Generations

/-! # The flow graph of any program

Whatever a program looks like, once it is cut into blocks every link leads to one
of them, and the instructions of blocks read and write what their words say. This
needs nothing of the targets of its jumps.
-/

namespace BpfLanes

open Compilation

variable {blk : Block} {d : Compilation} {i : Instr} {b p : Int} {id : Nat} {text : String}
  {u : Unit}

/-- The operands of an instruction are those of its word. -/
def Instr.FromWord (i : Instr) : Prop :=
  ∃ f, Fields.decode i.word = .ok f ∧ i.inputs.map Operand.register = f.inputs
    ∧ i.output.map Operand.register = if f.isNop then none else f.output?

theorem Instr.parse_fromWord {word : Word} (h : Instr.parse word text p = .ok i) : i.FromWord := by
  obtain ⟨f, hf, h⟩ := bind_eq_ok.mp h
  cases h
  refine ⟨f, hf, ?_, ?_⟩
  · rw [List.map_map]
    exact List.map_id _
  · dsimp only
    split
    · rfl
    · rw [Option.map_map]
      exact Option.map_id'

namespace Flow

variable {s c : Compilation}

/-! ## Blocks with links in range -/

/-- A block whose links lead to one of `count` blocks and whose instructions are not
    among the first `old` of the store. -/
structure GoodBlock (old count : Nat) (blk : Block) : Prop where
  links : ∀ x, x ∈ blk.taken ∨ blk.fall = some x → 0 ≤ x ∧ x < count
  body : ∀ id ∈ blk.body, old ≤ id

/-- A compilation with `count` blocks that are all good. The instructions of the store
    behind the first `old` have the operands of their words. -/
structure Sound (old count : Nat) (c : Compilation) : Prop where
  size : c.blocks.size = count
  good : ∀ blk ∈ c.blocks, GoodBlock old count blk
  room : old ≤ c.store.size
  instr : ∀ (id : Nat) (i : Instr), old ≤ id → c.store[id]? = some i → i.FromWord

theorem Sound.congr {old : Nat} (h : Sound old c.blocks.size c) (hblocks : d.blocks = c.blocks)
    (hstore : d.store = c.store) : Sound old d.blocks.size d :=
  ⟨hblocks ▸ rfl, hblocks ▸ h.good, hstore ▸ h.room, hstore ▸ h.instr⟩

variable {old count : Nat}

theorem gives_good : Gives (Sound old count) (GoodBlock old count) (block b) := by
  apply gives_bind (gives_get fun c hc => hc)
  intro c hc
  apply gives_lift
  intro blk hblk
  obtain ⟨k, _, hk⟩ := Position.get_eq_ok_iff.mp hblk
  exact hc.good blk (Array.mem_of_getElem? hk)

theorem keeps_setGood (h : GoodBlock old count blk) : Keeps (Sound old count) (setBlock b blk) := by
  apply gives_bind (gives_get fun c hc => hc)
  intro c hc
  apply gives_bind (gives_lift fun blocks hset => hset)
  intro blocks hset
  obtain ⟨k, _, rfl⟩ := Position.set_eq_ok_iff.mp hset
  refine keeps_set ⟨?_, ?_, hc.room, hc.instr⟩
  · exact Array.size_setIfInBounds.trans hc.size
  · intro x hx
    rcases Array.mem_or_eq_of_mem_setIfInBounds hx with hx | rfl
    · exact hc.good x hx
    · exact h

theorem gives_fromWord : Gives (Sound old count) (fun i => old ≤ id → i.FromWord) (instr id) := by
  apply gives_bind (gives_get fun c hc => hc)
  intro c hc
  apply gives_lift
  intro i hi hid
  rw [Position.get_natCast] at hi
  exact hc.instr id i hid hi

theorem keeps_setFromWord (h : old ≤ id → i.FromWord) :
    Keeps (Sound old count) (setInstr id i) := by
  apply keeps_modify
  intro c hc
  refine ⟨hc.size, hc.good, ?_, ?_⟩
  · show old ≤ (c.store.setIfInBounds id i).size
    rw [Array.size_setIfInBounds]
    exact hc.room
  · intro id' j hid' hj
    rw [Array.getElem?_setIfInBounds] at hj
    split at hj
    · next heq =>
      subst heq
      split at hj
      · cases hj
        exact h hid'
      · cases hj
    · exact hc.instr id' j hid' hj

theorem keeps_setPlace_sound {p : Option Int} {f : Place → Place} :
    Keeps (Sound old count) (setPlace p f) := by
  apply keeps_bind keeps_placeOf
  intro pl
  apply gives_bind (gives_get fun c hc => hc)
  intro c hc
  apply keeps_bind (keeps_lift _)
  intro q
  apply keeps_bind (keeps_lift _)
  intro schedule
  exact keeps_set ⟨hc.size, hc.good, hc.room, hc.instr⟩

/-! ## Parsing and linking -/

theorem keeps_parseInto : Keeps (Sound old count) (parseInto b p) := by
  apply gives_bind (gives_get fun c hc => hc.room)
  intro c hroom
  apply keeps_bind (keeps_lift _)
  intro word
  apply keeps_bind (keeps_lift _)
  intro text
  apply gives_bind (gives_lift fun i hi => Instr.parse_fromWord hi)
  intro i hi
  apply keeps_bind
  · apply keeps_modify
    intro c hc
    refine ⟨hc.size, hc.good, ?_, ?_⟩
    · show old ≤ (c.store.push i).size
      rw [Array.size_push]
      exact Nat.le_succ_of_le hc.room
    · intro id j hid hj
      rw [Array.getElem?_push] at hj
      split at hj
      · cases hj
        exact hi
      · exact hc.instr id j hid hj
  · intro _
    apply gives_bind gives_good
    intro blk hblk
    refine keeps_bind (keeps_setGood ⟨hblk.links, ?_⟩) fun _ => keeps_setPlace_sound
    intro id hid
    rcases Array.mem_push.mp hid with hid | rfl
    · exact hblk.body id hid
    · exact hroom

theorem keeps_say_sound : Keeps (Sound old count) (say text) :=
  keeps_modify fun _ hc => ⟨hc.size, hc.good, hc.room, hc.instr⟩

theorem gives_blockOfLeader {x : Int} (hcount : 0 < count) :
    Gives (Sound old count) (fun t : Int => 0 ≤ t ∧ t < count) (blockOfLeader x) := by
  apply gives_bind (gives_get fun c hc => hc.size)
  intro c hc
  split
  · next b hb =>
    apply gives_pure
    obtain ⟨hlt, _⟩ := Array.findIdx?_eq_some_iff_getElem.mp hb
    omega
  · split
    · apply gives_pure
      omega
    · exact gives_bind keeps_say_sound fun _ _ => gives_throw _

theorem GoodBlock.relink (h : GoodBlock old count blk) {new : List Int} {fall : Option Int}
    (hnew : ∀ x ∈ new, 0 ≤ x ∧ x < (count : Int))
    (hfall : ∀ x, fall = some x → 0 ≤ x ∧ x < (count : Int)) :
    GoodBlock old count { blk with taken := blk.taken ++ new, fall } := by
  refine ⟨?_, h.body⟩
  intro x hx
  rcases hx with hx | hx
  · rcases List.mem_append.mp hx with hold | hadded
    · exact h.links x (.inl hold)
    · exact hnew x hadded
  · exact hfall x hx

/-- Links to the next block and to the last one are in range. -/
theorem keeps_linkBlock {b : Nat} (hb : b + 1 < count) :
    Keeps (Sound old count) (linkBlock b) := by
  have hnext : ∀ x, some ((b : Int) + 1) = some x → 0 ≤ x ∧ x < (count : Int) := by
    intro x hx
    cases hx
    omega
  have hone : ∀ {y : Int}, 0 ≤ y ∧ y < (count : Int) → ∀ x ∈ [y], 0 ≤ x ∧ x < (count : Int) := by
    intro y hy x hx
    rwa [List.mem_singleton.mp hx]
  apply gives_bind gives_good
  intro blk hblk
  apply keeps_ite
  · apply keeps_setGood
    refine ⟨?_, hblk.body⟩
    intro x hx
    rcases hx with hx | hx
    · cases hx
    · exact hnext x hx
  · have hfall := hblk.relink (by simp : ∀ x ∈ ([] : List Int), _) hnext
    rw [List.append_nil] at hfall
    apply keeps_bind (keeps_setGood hfall)
    intro _
    apply gives_bind (gives_lift fun id hid => hid)
    intro lastId hid
    apply gives_bind gives_fromWord
    intro i hi
    apply keeps_bind keeps_fieldsOf
    intro f
    apply keeps_ite
    · exact keeps_setGood (hblk.relink (hone (by omega)) (by simp))
    apply keeps_ite
    · apply gives_bind (gives_blockOfLeader (by omega))
      intro t ht
      refine keeps_bind (keeps_setGood (hblk.relink (hone ht) ?_)) fun _ => ?_
      · intro x hx
        split at hx
        · cases hx
        · exact hnext x hx
      · -- a jump that knows its block reads and writes what it did
        exact keeps_setFromWord fun hid' => hi hid'
    · apply keeps_ite
      · apply gives_bind (gives_get fun c hc => hc.size)
        intro c hc
        exact keeps_setGood (hblk.relink (hone (by omega)) (by simp))
      · exact keeps_pure _

theorem keeps_parseBlock {b : Nat} (hb : b + 1 < count) :
    Keeps (Sound old count) (parseBlock b) := by
  apply keeps_bind keeps_block
  intro blk
  apply keeps_bind (keeps_forM fun n _ => keeps_parseInto)
  intro _
  exact keeps_linkBlock hb

theorem keeps_parseBlocks : Keeps (Sound old count) parseBlocks := by
  apply gives_bind (gives_get fun c hc => hc.size)
  intro c hc
  apply keeps_forM
  intro k hk
  rw [List.mem_range] at hk
  have hcast : ((k : Int) + 1) = ((k + 1 : Nat) : Int) := by omega
  rw [hcast]
  exact keeps_parseBlock (by omega)

/-! ## Cutting -/

/-- Blocks as they are cut: besides the entry, none is linked or has instructions. -/
def Unlinked (c : Compilation) : Prop :=
  ∀ blk ∈ c.blocks, blk = Block.entry ∨ blk.taken = [] ∧ blk.fall = none ∧ blk.body = #[]

theorem keeps_pushBlock {kind : BlockKind} {start len : Int} :
    Keeps (fun c => Unlinked c ∧ c.store = s.store ∧ 0 < c.blocks.size)
      (pushBlock { kind, start, len }) := by
  apply keeps_modify
  rintro c ⟨hunlinked, hstore, _⟩
  refine ⟨?_, hstore, ?_⟩
  · intro blk hblk
    rcases Array.mem_push.mp hblk with hblk | rfl
    · exact hunlinked blk hblk
    · exact .inr ⟨rfl, rfl, rfl⟩
  · show 0 < (c.blocks.push _).size
    rw [Array.size_push]
    exact Nat.succ_pos _

theorem keeps_pushFrom {starts : List Int} :
    Keeps (fun c => Unlinked c ∧ c.store = s.store ∧ 0 < c.blocks.size) (pushFrom starts) := by
  induction starts with
  | nil => exact keeps_pure _
  | cons x rest ih =>
    apply keeps_bind keeps_get
    intro c
    apply keeps_bind keeps_pushBlock
    intro _
    apply keeps_bind (keeps_lift _)
    intro w
    apply keeps_bind (keeps_lift _)
    intro f
    split
    · exact keeps_bind keeps_pushBlock fun _ => ih
    · exact ih

theorem runs_findBlocks_any (hc : c.blocks = #[Block.entry]) (h : Runs findBlocks c u d) :
    Unlinked d ∧ d.store = c.store ∧ 2 ≤ d.blocks.size := by
  have hstart : Unlinked c ∧ c.store = c.store ∧ 0 < c.blocks.size := by
    refine ⟨?_, rfl, by simp [hc]⟩
    intro blk hblk
    rw [hc] at hblk
    exact .inl (by simpa using hblk)
  -- the exit comes last
  have hrest : ∀ {starts : List Int} {s : Compilation},
      Unlinked s ∧ s.store = c.store ∧ 0 < s.blocks.size →
      Runs (do
        pushFrom starts
        pushBlock { kind := .exit, start := c.words.size, len := 0 }) s u d →
      Unlinked d ∧ d.store = c.store ∧ 2 ≤ d.blocks.size := by
    intro starts s hs hr
    obtain ⟨_, t, hr₁, hr₂⟩ := runs_bind.mp hr
    have ht := keeps_pushFrom.runs hr₁ hs
    obtain ⟨hunlinked, hstore, _⟩ := keeps_pushBlock.runs hr₂ ht
    refine ⟨hunlinked, hstore, ?_⟩
    have hd : d = { t with blocks := t.blocks.push _ } := runs_modify.mp hr₂
    rw [hd]
    simp only [Array.size_push]
    omega
  unfold findBlocks at h
  rw [runs_get_bind] at h
  cases hs : leaders c.words.size c.branches with
  | nil =>
    rw [hs] at h
    exact hrest hstart h
  | cons first rest =>
    rw [hs] at h
    dsimp only at h
    split at h
    · obtain ⟨_, t, hr, h⟩ := runs_bind.mp h
      exact hrest (keeps_pushBlock.runs hr hstart) h
    · exact hrest hstart h

theorem keeps_findBranches :
    Keeps (fun c => c.blocks = s.blocks ∧ c.store = s.store) findBranches := by
  have hnote : ∀ f : Branches → Branches,
      Keeps (fun c => c.blocks = s.blocks ∧ c.store = s.store) (modifyBranches f) :=
    fun f => keeps_modify fun _ hc => hc
  apply keeps_bind keeps_get
  intro c
  apply keeps_forM
  intro x _
  apply keeps_bind (keeps_lift _)
  intro f
  apply keeps_ite
  · apply keeps_bind (hnote _)
    intro _
    apply keeps_bind keeps_get
    intro c'
    apply keeps_ite
    · exact keeps_bind (keeps_bind (keeps_modify fun _ hc => hc) fun _ => keeps_throw _)
        fun _ => hnote _
    · exact hnote _
  · exact keeps_ite (hnote _) (keeps_ite (hnote _) (keeps_pure _))

theorem sound_of_analyse (hs : s.blocks = #[Block.entry]) (h : Runs analyse s u c) :
    Sound s.store.size c.blocks.size c ∧ c.flow = some (graphOf c.blocks.toList) := by
  rw [analyse_eq] at h
  obtain ⟨_, c₃, hr, hgraph⟩ := runs_bind.mp h
  obtain ⟨_, c₁, hr₁, hr⟩ := runs_bind.mp hr
  obtain ⟨_, c₂, hr₂, hr₃⟩ := runs_bind.mp hr
  obtain ⟨hblocks₁, hstore₁⟩ := keeps_findBranches.runs hr₁ ⟨rfl, rfl⟩
  obtain ⟨hunlinked, hstore₂, hsize⟩ := runs_findBlocks_any (hblocks₁.trans hs) hr₂
  have hstart : Sound s.store.size c₂.blocks.size c₂ := by
    refine ⟨rfl, ?_, ?_, ?_⟩
    · intro blk hblk
      rcases hunlinked blk hblk with rfl | ⟨htaken, hfall, hbody⟩
      · -- the entry leads to the first block
        refine ⟨?_, by simp [Block.entry]⟩
        intro x hx
        rcases hx with hx | hx
        · cases hx
        · cases hx
          omega
      · constructor
        · simp [htaken, hfall]
        · simp [hbody]
    · rw [hstore₂, hstore₁]
    · intro id i hid hi
      rw [hstore₂, hstore₁] at hi
      have := lt_size hi
      omega
  have hsound := keeps_parseBlocks.runs hr₃ hstart
  obtain ⟨dominators, postdominators, rfl⟩ := runs_buildGraph hgraph
  refine ⟨?_, rfl⟩
  rw [hsound.size]
  exact ⟨hsound.size, hsound.good, hsound.room, hsound.instr⟩

end Flow
end BpfLanes
