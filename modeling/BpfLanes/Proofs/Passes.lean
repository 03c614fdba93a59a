import BpfLanes.Optimize
import BpfLanes.Proofs.Access
import BpfLanes.Proofs.QuietGroups

/-! # What the passes leave alone

Between the analysis of a program and its schedule, passes rewrite words and
texts of the program. Blocks, instructions and places stay as they are, and no
pass writes a jump: every jump of the rewritten program is one of the source, at
its position.
-/

namespace BpfLanes

open Compilation

variable {source : Array Word} {I : Compilation → Prop} {g : Digraph} {check i : Instr}
  {o p register : Int} {is : List Instr} {ps : List Int} {fuel : Nat} {next : Option Int}
  {s : String} {α : Type} {word : Word}

/-- Every jump of a program is a jump of the source, at the same position. -/
def JumpsFrom (source words : Array Word) : Prop :=
  ∀ (p : Nat) (w : Word) (f : Fields), words[p]? = some w → Fields.decode w = .ok f →
    f.isJump = true → source[p]? = some w

theorem JumpsFrom.refl (words : Array Word) : JumpsFrom words words :=
  fun _ _ _ hw _ _ => hw

theorem JumpsFrom.set {words : Array Word} {k : Nat} (h : JumpsFrom source words)
    (hword : Word.NoJump word) : JumpsFrom source (words.setIfInBounds k word) := by
  intro p w f hw hf hj
  rw [Array.getElem?_setIfInBounds] at hw
  split at hw
  · split at hw
    · cases hw
      rw [hword f hf] at hj
      cases hj
    · cases hw
  · exact h p w f hw hf hj

/-- Only words and texts of the program, and what is reported, differ from `s`. -/
structure Rewritten (source : Array Word) (s c : Compilation) : Prop where
  size : c.words.size = s.words.size
  jumps : JumpsFrom source c.words
  rest : c = { s with
    words := c.words, texts := c.texts, bounds := c.bounds, fusedMoves := c.fusedMoves
    fusedExits := c.fusedExits, printed := c.printed, drawings := c.drawings }

/-- A property that does not depend on what is reported. -/
def Inert (I : Compilation → Prop) : Prop :=
  ∀ (c : Compilation) (bounds : BoundFacts) (moves exits : Nat) (printed : String)
    (drawings : Array Drawing), I c →
    I { c with bounds, fusedMoves := moves, fusedExits := exits, printed, drawings }

theorem rewritten_inert {s : Compilation} : Inert (Rewritten source s) := by
  intro c bounds moves exits printed drawings h
  refine ⟨h.size, h.jumps, ?_⟩
  rw [h.rest]

section
variable (hI : Inert I)
include hI

/-! ## Reports -/

theorem keeps_say : Keeps I (say s) :=
  keeps_modify fun c hc => hI c c.bounds c.fusedMoves c.fusedExits _ c.drawings hc

theorem keeps_fail : Keeps I (fail s : CompileM α) :=
  keeps_bind (keeps_say hI) fun _ => keeps_throw _

theorem keeps_printBlocks : Keeps I Optimize.printBlocks := by
  refine keeps_bind keeps_get fun c => keeps_bind (keeps_say hI) fun _ => ?_
  refine keeps_bind (keeps_forM fun k _ => ?_) fun _ => keeps_say hI
  refine keeps_bind keeps_block fun blk => ?_
  refine keeps_bind (keeps_say hI) fun _ => keeps_bind (keeps_say hI) fun _ => ?_
  refine keeps_bind (keeps_forM fun i _ => keeps_say hI) fun _ => ?_
  refine keeps_bind (keeps_say hI) fun _ => keeps_bind (keeps_say hI) fun _ => ?_
  refine keeps_bind (keeps_say hI) fun _ => keeps_bind (keeps_say hI) fun _ => ?_
  refine keeps_bind (keeps_say hI) fun _ => ?_
  split
  · exact keeps_bind (keeps_say hI) fun _ => keeps_say hI
  · exact keeps_say hI

theorem keeps_draw : Keeps I Flow.draw := by
  refine keeps_bind keeps_flowGraph fun g => keeps_bind keeps_get fun c => ?_
  exact keeps_modify fun c hc => hI c c.bounds c.fusedMoves c.fusedExits c.printed _ hc

theorem keeps_modifyFacts {f : BoundFacts → BoundFacts} : Keeps I (BoundCheck.modifyFacts f) :=
  keeps_modify fun c hc => hI c _ c.fusedMoves c.fusedExits c.printed c.drawings hc

/-! ## Walks along uses -/

theorem keeps_indexIn {blk : Block} : Keeps I (indexIn blk p) := by
  refine keeps_bind keeps_get fun c => ?_
  split
  · exact keeps_pure _
  · exact keeps_fail hI

theorem keeps_instrOf : Keeps I (instrOf p) := by
  refine keeps_bind keeps_placeOf fun pl => keeps_bind (keeps_lift _) fun b => ?_
  refine keeps_bind keeps_block fun blk => keeps_bind (keeps_indexIn hI) fun n => ?_
  exact keeps_instrAt

theorem keeps_walk : Keeps I (LastUse.walk register fuel p) := by
  induction fuel generalizing p with
  | zero => exact keeps_throw _
  | succ fuel ih =>
    refine keeps_bind (keeps_instrOf hI) fun i => keeps_bind (keeps_lift _) fun h => ?_
    split
    · exact keeps_pure _
    · exact ih

theorem keeps_lastUse : Keeps I (LastUse.find next register) := by
  unfold LastUse.find
  split
  · exact keeps_pure _
  · exact keeps_bind keeps_get fun _ => keeps_walk hI

end

/-! ## Rewriting the program -/

variable {group : Peephole.Group}
variable {s : Compilation}

theorem keeps_setProgram {p : Option Int} {text : String} (hword : Word.NoJump word) :
    Keeps (Rewritten source s) (setProgram p word text) := by
  refine keeps_bind (keeps_lift _) fun q => gives_bind (gives_get fun c hc => hc) fun c hc => ?_
  refine gives_bind (gives_lift fun words hwords => Position.set_eq_ok_iff.mp hwords)
    fun words hwords => ?_
  obtain ⟨k, _, rfl⟩ := hwords
  have hset : Rewritten source s { c with words := c.words.setIfInBounds k word } := by
    refine ⟨Array.size_setIfInBounds.trans hc.size, hc.jumps.set hword, ?_⟩
    rw [hc.rest]
  refine keeps_bind (keeps_set hset) fun _ => keeps_bind (keeps_lift _) fun texts => ?_
  refine keeps_modify fun d hd => ⟨hd.size, hd.jumps, ?_⟩
  rw [hd.rest]

/-! ## Fusion -/

theorem not_jump_fused {o' : Int} (h : Opcode.fused? o = some o') (f : Fields)
    (hf : f.opcode = o' % 2 ^ 8) : f.isJump = false := by
  have hall : ∀ e ∈ Opcode.fusedForms, Opcode.branches.contains (e.2 % 2 ^ 8) = false := by decide
  exact Fields.not_jump_of_opcode hf (.inl (hall (o, o') (Fields.mem_of_lookup h)))

theorem keeps_fuseMove {copy operation : Instr} :
    Keeps (Rewritten source s) (Fusion.fuseMove copy operation) := by
  refine keeps_bind (keeps_lift _) fun b => keeps_ite ?_ (keeps_pure _)
  refine keeps_bind (keeps_lift _) fun position => keeps_bind (keeps_lift _) fun o => ?_
  refine keeps_bind (keeps_lift _) fun word => keeps_bind (keeps_lift _) fun f => ?_
  refine gives_bind (gives_lift fun opcode ho => need_eq_ok_iff.mp ho) fun opcode ho => ?_
  refine keeps_bind (keeps_lift _) fun text => ?_
  refine keeps_bind (keeps_setProgram (Word.noJump_setOpcode (not_jump_fused ho))) fun _ => ?_
  refine keeps_bind (keeps_setProgram Word.noJump_nop) fun _ => ?_
  exact keeps_modify fun c hc =>
    rewritten_inert c c.bounds _ c.fusedExits c.printed c.drawings hc

theorem keeps_fuseExit {result exit_ : Instr} :
    Keeps (Rewritten source s) (Fusion.fuseExit result exit_) := by
  refine keeps_bind keeps_fieldsOf fun f => keeps_ite ?_ (keeps_pure _)
  refine keeps_bind keeps_fieldsOf fun f => keeps_ite ?_ (keeps_pure _)
  refine keeps_bind (keeps_lift _) fun position => keeps_bind (keeps_lift _) fun word => ?_
  have hexit : ∀ f : Fields, f.opcode = Opcode.moveExit % 2 ^ 8 → f.isJump = false := fun f hf =>
    Fields.not_jump_of_opcode hf (.inr (by decide))
  refine keeps_bind (keeps_setProgram (Word.noJump_setOpcode hexit)) fun _ => ?_
  refine keeps_bind (keeps_setProgram Word.noJump_nop) fun _ => ?_
  exact keeps_modify fun c hc =>
    rewritten_inert c c.bounds c.fusedMoves _ c.printed c.drawings hc

theorem keeps_fuseAll : Keeps (Rewritten source s) Fusion.fuseAll := by
  refine keeps_bind keeps_get fun c => keeps_bind (keeps_forM fun blk _ => ?_) fun _ => ?_
  · exact keeps_bind keeps_body fun is => keeps_forM fun x _ => keeps_fuseMove
  · refine keeps_bind keeps_flowGraph fun g => keeps_bind (keeps_lift _) fun bs => ?_
    refine keeps_forM fun b _ => keeps_bind keeps_block fun blk => ?_
    exact keeps_bind keeps_body fun is => keeps_forM fun x _ => keeps_fuseExit

/-! ## Removal -/

theorem keeps_drop {positions : List (Option Int)} :
    Keeps (Rewritten source s) (Removal.drop positions) :=
  keeps_forM fun _ _ => keeps_setProgram Word.noJump_nop

theorem keeps_followInput {state : Option Int × List (Option Int)} {o : Operand} :
    Keeps (Rewritten source s) (Removal.followInput register state o) := by
  refine keeps_ite ?_ (keeps_pure _)
  split
  · exact keeps_bind keeps_drop fun _ => keeps_pure _
  · exact keeps_pure _

theorem keeps_follow {pending : List (Option Int)} :
    Keeps (Rewritten source s) (Removal.follow group register fuel next pending) := by
  induction fuel generalizing next pending with
  | zero =>
    cases next with
    | none => exact keeps_pure _
    | some p => exact keeps_throw _
  | succ fuel ih =>
    cases next with
    | none => exact keeps_pure _
    | some p =>
      refine keeps_bind (keeps_instrOf rewritten_inert) fun i => keeps_ite (keeps_pure _) ?_
      refine keeps_bind (keeps_foldlM (fun _ _ _ => keeps_followInput) _) fun x => ?_
      exact keeps_bind keeps_fieldsOf fun f => keeps_ite keeps_drop ih

theorem keeps_apply {e : Peephole.Entry} (he : Word.NoJump e.word) :
    Keeps (Rewritten source s) (Removal.apply group e) := by
  refine keeps_bind keeps_get fun c => keeps_bind (keeps_lift _) fun word => ?_
  refine keeps_ite (keeps_pure _) (keeps_bind (keeps_lift _) fun f => ?_)
  refine keeps_ite (keeps_setProgram he) (keeps_bind (keeps_instrOf rewritten_inert) fun i => ?_)
  refine keeps_bind (keeps_setProgram he) fun _ => keeps_ite ?_ (keeps_pure _)
  split
  · exact keeps_bind keeps_get fun _ => keeps_follow
  · exact keeps_pure _

theorem keeps_applyAll (hgroup : group.Quiet) :
    Keeps (Rewritten source s) (Removal.applyAll group) :=
  keeps_forM fun e he => keeps_apply (hgroup e (List.mem_reverse.mp he))

/-! ## Bound checks -/

/-- Only notes and reports differ. -/
def Noted (s c : Compilation) : Prop :=
  c = { s with
    bounds := c.bounds, fusedMoves := c.fusedMoves, fusedExits := c.fusedExits
    printed := c.printed, drawings := c.drawings }

theorem noted_inert : Inert (Noted s) := by
  intro c bounds moves exits printed drawings h
  show _ = _
  rw [h]

theorem Inert.gives {P : α → Prop} {m : CompileM α} (hI : Inert I) (h : ∀ s, Gives (Noted s) P m) :
    Gives I P m := by
  intro s hs
  refine (h s s rfl).mono fun c hc => ?_
  rw [hc]
  exact hI s _ _ _ _ _ hs

namespace BoundCheck

variable {b exit : Int} {x : Found} {blk : Block} {copy : Option Instr}

/-- Instruction `n` of a block is `i`. -/
def InstrIn (s : Compilation) (blk : Block) (n : Int) (i : Instr) : Prop :=
  ∃ id, Position.get blk.body n = .ok id ∧ s.store[id]? = some i

/-- What goes with bound checks: copies of the context pointer, loads of the start and the
    end of the packet, additions of offsets, the comparisons and the choice to drop the
    packet. -/
inductive Part (i : Instr) (f : Fields) : Prop where
  | context (hmove : f.isMove = true) (h : (i.inputs.head?.any fun o => o.register == 1) = true)
  | load (hbits : f.loadBits? = some 32) (hoffset : f.offset = 0 ∨ f.offset = 4)
  | address (h : f.isAddImmediate = true)
  | check (h : f.isGreaterJump = true)
  | drop (hmove : f.isMoveImmediate = true) (h : f.immediate = dropAction)

/-- The block that alone leads to the exit. -/
def IsLastBlock (s : Compilation) (exit : Int) : Prop :=
  ∃ g last blk, s.flow = some g ∧ Position.get s.blocks last = .ok blk ∧ blk.kind = .exit ∧
    g.predecessors last = .ok [exit]

/-- A basic block ends in a comparison that jumps to the last block. -/
structure Compares (s : Compilation) (b : Int) (blk : Block) : Prop where
  block : Position.get s.blocks b = .ok blk
  basic : blk.kind = .basic
  taken : ∃ exit ∈ blk.taken, IsLastBlock s exit
  check : ∃ i f, InstrIn s blk (-1) i ∧ Fields.decode i.word = .ok f ∧ f.isGreaterJump = true

/-- Where an instruction stands that may be removed: a part of a bound check in a block that
    ends in a comparison, or the copy of the context pointer in any block. -/
def Removable (s : Compilation) (copy : Option Instr) (p : Option Int) : Prop :=
  ∃ (b : Int) (blk : Block) (n : Int) (i : Instr) (f : Fields), Position.get s.blocks b = .ok blk ∧
    InstrIn s blk n i ∧ i.position = p ∧ Fields.decode i.word = .ok f ∧ Part i f ∧
    (copy = some i ∨ Compares s b blk)

theorem Compares.removable {n : Int} {f : Fields} (hb : Compares s b blk) (hi : InstrIn s blk n i)
    (hf : Fields.decode i.word = .ok f) (hpart : Part i f) : Removable s copy i.position :=
  ⟨b, blk, n, i, f, hb.block, hi, rfl, hf, hpart, .inr hb⟩

/-- All that is marked is to do nothing, and may be removed. The copy is marked. -/
structure Marks (s : Compilation) (copy : Option Instr) (g : Peephole.Group) : Prop where
  entry : ∀ e ∈ g, e = .nop e.id ∧ Removable s copy (some e.id)
  copy : ∀ i, copy = some i → ∃ e ∈ g, i.position = some e.id

theorem Marks.quiet {g : Peephole.Group} (h : Marks s copy g) : g.Quiet := by
  intro e he
  rw [(h.entry e he).1]
  exact Word.noJump_nop

theorem Marks.insert {g : Peephole.Group} (h : Marks s copy g) (hp : Removable s copy (some p)) :
    Marks s copy (g.insert (.nop p)) := by
  constructor
  · intro e he
    rcases Peephole.Group.mem_insert he with rfl | he
    · exact ⟨rfl, hp⟩
    · exact h.entry e he
  · intro i hi
    obtain ⟨e, he, hpos⟩ := h.copy i hi
    by_cases heq : e.id = p
    · exact ⟨_, Peephole.Group.mem_insert_self g _, heq ▸ hpos⟩
    · exact ⟨e, Peephole.Group.mem_insert_of_ne he heq, hpos⟩

theorem Marks.remove {y : Found} {p : Option Int} (hx : Marks s copy x.group)
    (hp : Removable s copy p) (h : x.remove p = .ok y) : Marks s copy y.group := by
  obtain ⟨q, hq, h⟩ := bind_eq_ok.mp h
  cases h
  rw [need_eq_ok_iff.mp hq] at hp
  exact hx.insert hp

theorem Marks.note (h : Marks s copy x.group) : Marks s copy (x.note o).group := by
  unfold Found.note
  split <;> exact h

/-! ### Looking at instructions -/

theorem gives_block : Gives (Noted s) (fun blk => Position.get s.blocks b = .ok blk) (block b) := by
  refine gives_of_runs keeps_block fun c blk d hc h => ?_
  rw [hc] at h
  exact (runs_block.mp h).1

theorem gives_instrAt {n : Int} : Gives (Noted s) (InstrIn s blk n) (instrAt blk n) := by
  refine gives_of_runs keeps_instrAt fun c i d hc h => ?_
  rw [hc] at h
  obtain ⟨id, hid, hi, _⟩ := runs_instrAt.mp h
  exact ⟨id, hid, hi⟩

theorem gives_body : Gives (Noted s) (· = s.bodyOf blk) (body blk) := by
  refine gives_bind (gives_get fun c hc => hc) fun c hc => gives_pure ?_
  rw [hc]
  rfl

theorem instrIn_of_mem (hi : i ∈ s.bodyOf blk) : ∃ n, InstrIn s blk n i := by
  obtain ⟨id, hid, hi⟩ := List.mem_filterMap.mp hi
  obtain ⟨k, hk⟩ := Array.mem_iff_getElem?.mp (Array.mem_toList_iff.mp hid)
  exact ⟨k, id, Position.get_natCast.mpr hk, hi⟩

theorem gives_flowGraph : Gives (Noted s) (fun g => s.flow = some g) flowGraph := by
  refine gives_of_runs keeps_flowGraph fun c g d hc h => ?_
  rw [hc] at h
  exact (runs_flowGraph.mp h).1

theorem gives_fieldsOf : Gives I (fun f => Fields.decode i.word = .ok f) (fieldsOf i) :=
  gives_lift fun _ hf => hf

theorem keeps_noteLast {last : Option Int} {f : Int → BoundFacts → BoundFacts} :
    Keeps (Noted s) (noteLast last f) := by
  unfold noteLast
  split
  · exact keeps_modifyFacts noted_inert
  · exact keeps_pure _

theorem part_of_isLoadOf {offset : Int} (hoffset : offset = 0 ∨ offset = 4)
    (h : isLoadOf i 32 offset = .ok true) : ∃ f, Fields.decode i.word = .ok f ∧ Part i f := by
  obtain ⟨f, hf, h⟩ := bind_eq_ok.mp h
  have htest := Except.ok.inj h
  simp only [Bool.and_eq_true, beq_iff_eq] at htest
  exact ⟨f, hf, .load htest.1 (htest.2 ▸ hoffset)⟩

/-! ### The end of the packet -/

theorem gives_dataEndAmong :
    Gives (Noted s) (fun r => ∀ p, r = some p → ∃ i, InstrIn s blk p i ∧ isLoadOf i 32 4 = .ok true)
      (dataEndAmong blk register ps) := by
  induction ps with
  | nil => exact gives_pure nofun
  | cons p rest ih =>
    unfold dataEndAmong
    split
    · refine gives_bind gives_instrAt fun i hi => gives_bind (keeps_lift _) fun o _ => ?_
      refine gives_bind (gives_lift fun b hb => hb) fun b hb => ?_
      split
      · next htest =>
        obtain ⟨_, rfl⟩ := Bool.and_eq_true_iff.mp htest
        exact gives_pure fun q hq => Option.some.inj hq ▸ ⟨i, hi, hb⟩
      · exact ih
    · exact ih

section
variable (hb : Compares s b blk)
include hb

theorem gives_checkEnd (hx : Marks s copy x.group) :
    Gives (Noted s) (fun r => ∀ y, r = some y → Marks s copy y.group)
      (checkEnd b blk g check register x) := by
  refine gives_bind keeps_get fun c _ => gives_bind (keeps_lift _) fun known _ => ?_
  split
  · exact gives_pure fun y hy => Option.some.inj hy ▸ hx
  refine gives_bind (P := fun r => ∀ p, r = some p →
    ∃ i, InstrIn s blk p i ∧ isLoadOf i 32 4 = .ok true) ?_ fun p hp => ?_
  · refine gives_bind (keeps_lift _) fun _ _ => gives_bind gives_block fun blk' hb' => ?_
    obtain rfl := Except.ok.inj (hb.block.symm.trans hb')
    exact gives_dataEndAmong
  split
  · next p =>
    refine gives_bind gives_instrAt fun load hload => gives_bind (keeps_lift _) fun pointer _ => ?_
    refine gives_bind keeps_get fun c _ => gives_bind (keeps_lift _) fun known _ => ?_
    split
    · exact gives_pure nofun
    have hpart : Removable s copy load.position := by
      obtain ⟨i, ⟨id, hid, hi⟩, hend⟩ := hp p rfl
      obtain ⟨id', hid', hi'⟩ := hload
      obtain rfl := Except.ok.inj (hid.symm.trans hid')
      obtain rfl := Option.mem_unique hi hi'
      obtain ⟨f, hf, hpart⟩ := part_of_isLoadOf (.inr rfl) hend
      exact hb.removable ⟨id, hid, hi⟩ hf hpart
    refine gives_bind (gives_lift fun y hy => hx.remove hpart hy) fun y hy => ?_
    refine gives_bind (keeps_lift _) fun o _ => ?_
    refine gives_bind (keeps_lastUse noted_inert) fun last _ => ?_
    exact gives_bind keeps_noteLast fun _ _ => gives_pure fun z hz => Option.some.inj hz ▸ hy
  · exact gives_pure nofun

/-! ### Addresses -/

/-- What computes an address may be removed. -/
def MayGo (s : Compilation) (copy : Option Instr) (r : Option Address) : Prop :=
  ∀ a, r = some a → ∀ q ∈ a.positions, Removable s copy q

theorem gives_addressAt :
    Gives (Noted s) (MayGo s copy) (addressAt blk g p) := by
  refine gives_bind gives_instrAt fun i hi => gives_bind gives_fieldsOf fun f hf => ?_
  split
  · exact gives_pure nofun
  next hadd =>
  have hown : Removable s copy i.position := hb.removable hi hf (.address (by simpa using hadd))
  refine gives_bind (keeps_lift _) fun base _ => gives_bind keeps_get fun c _ => ?_
  refine gives_bind (keeps_lift _) fun known _ => ?_
  split
  · exact gives_pure fun a ha q hq => by
      cases ha
      exact List.mem_singleton.mp hq ▸ hown
  refine gives_bind (keeps_lift _) fun above _ => gives_bind (keeps_lift _) fun n _ => ?_
  refine gives_bind gives_instrAt fun load hload => ?_
  refine gives_bind (gives_lift fun t ht => ht) fun t ht => ?_
  split
  · exact gives_pure nofun
  next hload' =>
  obtain ⟨f', hf', hpart⟩ := part_of_isLoadOf (.inl rfl) (show isLoadOf load 32 0 = .ok true by
    rw [ht]
    simpa using hload')
  refine gives_bind (keeps_lift _) fun pointer _ => gives_bind keeps_get fun c _ => ?_
  refine gives_bind (keeps_lift _) fun known _ => ?_
  split
  · exact gives_pure nofun
  refine gives_bind (keeps_lift _) fun start _ => ?_
  refine gives_bind (keeps_lastUse noted_inert) fun last _ => ?_
  refine gives_bind keeps_noteLast fun _ _ => gives_pure fun a ha q hq => ?_
  cases ha
  rcases List.mem_pair.mp hq with rfl | rfl
  · exact hown
  · exact hb.removable hload hf' hpart

theorem gives_addressAmong :
    Gives (Noted s) (MayGo s copy) (addressAmong blk g register ps) := by
  induction ps with
  | nil => exact gives_pure nofun
  | cons p rest ih =>
    unfold addressAmong
    split
    · refine gives_bind gives_instrAt fun i _ => gives_bind (keeps_lift _) fun o _ => ?_
      split
      · refine gives_bind (P := MayGo s copy) (gives_addressAt hb) fun a ha => ?_
        split
        · exact gives_pure ha
        · exact ih
      · exact ih
    · exact ih

theorem gives_checkAddress (hx : Marks s copy x.group) :
    Gives (Noted s) (fun r => ∀ y, r = some y → Marks s copy y.group)
      (checkAddress b blk g check register x) := by
  refine gives_bind keeps_get fun c _ => gives_bind (keeps_lift _) fun known _ => ?_
  split
  · exact gives_pure fun y hy => Option.some.inj hy ▸ hx.note
  refine gives_bind (P := MayGo s copy) ?_ fun a ha => ?_
  · refine gives_bind (keeps_lift _) fun _ _ => gives_bind gives_block fun blk' hb' => ?_
    obtain rfl := Except.ok.inj (hb.block.symm.trans hb')
    exact gives_addressAmong hb
  split
  · next a =>
    refine gives_bind (keeps_lift _) fun o _ => ?_
    refine gives_bind (keeps_lastUse noted_inert) fun last _ => ?_
    refine gives_bind keeps_noteLast fun _ _ => ?_
    have hall : ∀ (ps : List (Option Int)) (x y : Found), (∀ q ∈ ps, Removable s copy q) →
        Marks s copy x.group → ps.foldlM Found.remove x = .ok y → Marks s copy y.group := by
      intro ps
      induction ps with
      | nil =>
        intro x y _ hx h
        exact Except.ok.inj h ▸ hx
      | cons q ps ih =>
        intro x y hps hx h
        obtain ⟨z, hz, h⟩ := bind_eq_ok.mp h
        exact ih z y (fun q' hq' => hps q' (List.mem_cons_of_mem _ hq'))
          (hx.remove (hps q List.mem_cons_self) hz) h
    refine gives_bind (gives_lift fun y hy => hall _ x y (ha a rfl) hx hy) fun y hy => ?_
    exact gives_pure fun z hz => Option.some.inj hz ▸ hy.note
  · exact gives_pure nofun

/-! ### Blocks -/

theorem gives_removeDrops (hx : Marks s copy x.group) :
    Gives (Noted s) (fun y => Marks s copy y.group) (removeDrops blk x) := by
  refine gives_bind keeps_get fun c _ => ?_
  dsimp only
  split
  · exact gives_pure hx
  refine gives_bind gives_body fun _ hbody => gives_foldlM (fun i hi y hy => ?_) hx
  obtain ⟨n, hn⟩ := instrIn_of_mem (hbody ▸ hi)
  refine gives_bind gives_fieldsOf fun f hf => ?_
  split
  · next hmove =>
    refine gives_bind (keeps_lift _) fun o _ => ?_
    split
    · next htest =>
      have himm := (Bool.and_eq_true_iff.mp htest).2
      exact gives_lift fun z hz =>
        hy.remove (hb.removable hn hf (.drop hmove (eq_of_beq himm))) hz
    · exact gives_pure hy
  · exact gives_pure hy

end

theorem gives_visit (hexit : IsLastBlock s exit) (hx : Marks s copy x.group) :
    Gives (Noted s) (fun y => Marks s copy y.group) (visit exit x b) := by
  refine gives_bind gives_block fun blk hb => ?_
  split
  · exact gives_pure hx
  next hkind =>
  refine gives_bind gives_instrAt fun check hcheck => gives_bind gives_fieldsOf fun f hf => ?_
  split
  · exact gives_pure hx
  next htest =>
  obtain ⟨hjump, htaken⟩ : f.isGreaterJump = true ∧ exit ∈ blk.taken := by simpa using htest
  have hb : Compares s b blk :=
    ⟨hb, by simpa using hkind, ⟨exit, htaken, hexit⟩, check, f, hcheck, hf, hjump⟩
  have hpart : Removable s copy check.position := hb.removable hcheck hf (.check hjump)
  have hgraph : Keeps (Noted s) (Dependence.ofBlock blk) :=
    keeps_bind keeps_body fun _ => keeps_lift _
  refine gives_bind hgraph fun g _ => gives_bind (gives_checkEnd hb hx) fun y hy => ?_
  split
  · exact gives_pure hx
  next y =>
  refine gives_bind (gives_checkAddress hb (hy y rfl)) fun z hz => ?_
  split
  · exact gives_pure (hy y rfl)
  · next z =>
    refine gives_bind (gives_lift fun v hv => (hz z rfl).remove hpart hv) fun v hv => ?_
    exact gives_removeDrops hb hv

/-! ### The whole program -/

theorem gives_exitBlock : Gives (Noted s) (IsLastBlock s) exitBlock := by
  refine gives_bind gives_flowGraph fun g hg => gives_bind (keeps_lift _) fun order _ => ?_
  refine gives_bind (keeps_lift _) fun last _ => gives_bind gives_block fun blk hb => ?_
  refine gives_bind (gives_lift fun above h => h) fun above habove => ?_
  refine gives_bind (gives_lift fun _ h => h) fun _ htest => gives_lift fun exit hexit => ?_
  obtain ⟨hkind, hone⟩ : blk.kind = .exit ∧ above.length = 1 := by simpa [require] using htest
  obtain ⟨x, rfl⟩ := List.length_eq_one_iff.mp hone
  exact ⟨g, last, blk, hg, hb, hkind, Except.ok.inj hexit ▸ habove⟩

theorem keeps_copiedAction : Keeps (Noted s) (copiedAction is) := by
  induction is with
  | nil => exact keeps_pure _
  | cons i rest ih =>
    exact keeps_bind keeps_fieldsOf fun f => keeps_ite (keeps_modifyFacts noted_inert) ih

theorem keeps_findAction : Keeps (Noted s) (findAction exit) := by
  refine keeps_bind keeps_block fun blk => keeps_bind keeps_instrAt fun last => ?_
  refine keeps_bind ?_ fun _ => keeps_ite ?_ (keeps_modifyFacts noted_inert)
  · refine keeps_bind keeps_fieldsOf fun f => keeps_ite ?_ (keeps_pure _)
    exact keeps_bind keeps_instrAt fun _ => keeps_bind keeps_fieldsOf fun _ => keeps_lift _
  · refine keeps_bind keeps_instrAt fun before => keeps_bind keeps_fieldsOf fun f => ?_
    refine keeps_ite ?_ keeps_copiedAction
    exact keeps_bind keeps_fieldsOf fun _ => keeps_modifyFacts noted_inert

theorem keeps_checkEntry : Keeps (Noted s) checkEntry := by
  refine keeps_bind keeps_flowGraph fun g => keeps_bind (keeps_lift _) fun order => ?_
  refine keeps_bind (keeps_lift _) fun first => keeps_bind keeps_block fun blk => ?_
  exact keeps_bind (keeps_lift _) fun _ => keeps_lift _

theorem gives_contextCopy (hb : Position.get s.blocks b = .ok blk)
    (his : ∀ i ∈ is, ∃ n, InstrIn s blk n i) :
    Gives (Noted s) (fun r => ∀ x, r = some x → Removable s (r.map Prod.fst) x.1.position)
      (contextCopy is) := by
  induction is with
  | nil => exact gives_pure fun _ hx => nomatch hx
  | cons i rest ih =>
    have hrest := ih fun i' hi' => his i' (List.mem_cons_of_mem _ hi')
    refine gives_bind gives_fieldsOf fun f hf => ?_
    split
    · next htest =>
      refine gives_bind (keeps_lift _) fun o _ => ?_
      refine gives_bind (keeps_lastUse noted_inert) fun last _ => ?_
      split
      · obtain ⟨n, hn⟩ := his i List.mem_cons_self
        obtain ⟨hmove, hinput⟩ := Bool.and_eq_true_iff.mp htest
        exact gives_pure fun x hx => Option.some.inj hx ▸
          ⟨b, blk, n, i, f, hb, hn, rfl, hf, .context hmove hinput, .inl rfl⟩
      · exact hrest
    · exact hrest

/-- The search for a copy of the context pointer ends with `copy`. -/
def Copied (s : Compilation) (copy : Option Instr) : Prop :=
  ∃ blk c x d, Position.get s.blocks 1 = .ok blk ∧ Noted s c ∧
    Runs (contextCopy (s.bodyOf blk)) c x d ∧ x.map Prod.fst = copy

theorem gives_findContext :
    Gives (Noted s) (fun r => ∀ g, r = some g → ∃ copy, Copied s copy ∧ Marks s copy g)
      findContext := by
  refine gives_bind gives_block fun blk hb => gives_bind gives_body fun is his => ?_
  subst his
  have hsearch := gives_contextCopy hb fun i => instrIn_of_mem
  refine gives_bind (P := fun r => (∀ x, r = some x → Removable s (r.map Prod.fst) x.1.position) ∧
    Copied s (r.map Prod.fst)) ?_ fun copy hcopy => ?_
  · exact gives_of_runs (hsearch.weaken fun _ _ => trivial) fun c x d hc h =>
      ⟨(hsearch.runs h hc).1, blk, c, x, d, hb, hc, h, rfl⟩
  refine gives_bind (P := fun _ => True) ?_ fun _ _ => ?_
  · unfold noteCopy
    split
    · exact keeps_modifyFacts noted_inert
    · exact keeps_pure _
  refine gives_bind (P := fun _ => True) ?_ fun used _ => ?_
  · refine keeps_bind keeps_get fun c => keeps_ite ?_ (keeps_pure _)
    split
    · exact keeps_pure _
    · refine keeps_bind (keeps_lastUse noted_inert) fun last => ?_
      exact keeps_bind keeps_noteLast fun _ => keeps_pure _
  split
  · exact gives_pure nofun
  split
  · next i held =>
    refine gives_bind (gives_lift fun p hp => need_eq_ok_iff.mp hp) fun p hp => ?_
    refine gives_pure fun g hg => ⟨_, hcopy.2, ?_, fun j hj => ?_⟩
    · cases hg
      intro e he
      obtain rfl := List.mem_singleton.mp he
      exact ⟨rfl, hp ▸ hcopy.1 _ rfl⟩
    · cases hg
      cases hj
      exact ⟨_, List.mem_singleton_self _, hp⟩
  · exact gives_pure fun g hg => ⟨_, hcopy.2, Option.some.inj hg ▸ nofun, nofun⟩

/-- What is to be removed, and the offsets that are checked. -/
def collect : CompileM (Option Found) := do
  let exit ← exitBlock
  findAction exit
  checkEntry
  match ← findContext with
  | none => return none
  | some group =>
    let order ← (← flowGraph).smallestFirst
    return some (← (order.drop 1).dropLast.foldlM (visit exit) { group })

theorem removeAll_eq : removeAll = (do
    match ← collect with
    | none => return none
    | some s =>
      Removal.applyAll s.group
      return some s.offsets) := by
  unfold removeAll collect
  simp only [bind_assoc]
  congr
  funext exit
  congr
  funext _
  congr
  funext _
  congr
  funext group
  cases group <;> simp

theorem gives_collect :
    Gives (Noted s) (fun r => ∀ x, r = some x → ∃ copy, Copied s copy ∧ Marks s copy x.group)
      collect := by
  refine gives_bind gives_exitBlock fun exit hexit => gives_bind keeps_findAction fun _ _ => ?_
  refine gives_bind keeps_checkEntry fun _ _ => gives_bind gives_findContext fun group hgroup => ?_
  split
  · exact gives_pure nofun
  · next group =>
    refine gives_bind keeps_flowGraph fun g _ => gives_bind (keeps_lift _) fun order _ => ?_
    obtain ⟨copy, hcopy, hgroup⟩ := hgroup group rfl
    refine gives_bind (gives_foldlM (fun b _ x hx => gives_visit hexit hx) hgroup) fun x hx => ?_
    exact gives_pure fun y hy => ⟨copy, hcopy, Option.some.inj hy ▸ hx⟩

end BoundCheck

theorem keeps_removeAll : Keeps (Rewritten source s) BoundCheck.removeAll := by
  rw [BoundCheck.removeAll_eq]
  refine gives_bind (rewritten_inert.gives (P := fun r => ∀ x, r = some x → x.group.Quiet) fun s =>
    BoundCheck.gives_collect.weaken fun r hr x hx => (hr x hx).choose_spec.2.quiet)
    fun found hfound => ?_
  split
  · exact keeps_pure _
  · next x => exact keeps_bind (keeps_applyAll (hfound x rfl)) fun _ => keeps_pure _

end BpfLanes
