import BpfLanes.Proofs.Passes
import BpfLanes.Proofs.RangeRecords
import BpfLanes.Proofs.SlotTable

/-! # What renaming registers leaves alone

Renaming a value changes words, texts and operands of instructions of one block.
Every instruction keeps its operation and its position, and slots that are written
again get what they held already. Renaming may end in a fault after some
instructions were changed, so all this is said about every state that it can leave
behind.
-/

namespace BpfLanes

open Compilation

variable {old : Array Instr} {i j : Instr} {m n new : Int} {ns : List Int} {id : Nat} {o : Operand}
  {w : Word}

variable {touched : Nat → Prop}

/-- The same operation in the same place: only registers and the text differ. -/
structure Instr.SameOperation (i j : Instr) : Prop where
  position : j.position = i.position
  jumpsTo : j.jumpsTo = i.jumpsTo
  fields : ∀ f, Fields.decode i.word = .ok f → ∃ f', Fields.decode j.word = .ok f' ∧
    f'.opcode = f.opcode ∧ f'.offset = f.offset
  immediate : ∀ f f', Fields.decode i.word = .ok f → Fields.decode j.word = .ok f' →
    f'.immediate = f.immediate
  output : j.output.map Operand.nextUse = i.output.map Operand.nextUse
  inputs : j.inputs.map Operand.nextUse = i.inputs.map Operand.nextUse

theorem Instr.SameOperation.silent (h : i.SameOperation j) (hnone : i.output = none) :
    j.output = none := by
  simpa [hnone] using h.output

theorem Instr.SameOperation.of_same_word (hposition : j.position = i.position)
    (hjumps : j.jumpsTo = i.jumpsTo) (hword : j.word = i.word)
    (houtput : j.output.map Operand.nextUse = i.output.map Operand.nextUse)
    (hinputs : j.inputs = i.inputs) : i.SameOperation j := by
  refine ⟨hposition, hjumps, ?_, ?_, houtput, by rw [hinputs]⟩
  · intro f hf
    rw [hword]
    exact ⟨f, hf, rfl, rfl⟩
  · intro f f' hf hf'
    rw [hword] at hf'
    obtain rfl := Except.ok.inj (hf.symm.trans hf')
    rfl

theorem Instr.SameOperation.refl (i : Instr) : i.SameOperation i :=
  .of_same_word rfl rfl rfl rfl rfl

theorem Instr.SameOperation.trans {k : Instr} (h : i.SameOperation j) (h' : j.SameOperation k) :
    i.SameOperation k := by
  refine ⟨h'.position.trans h.position, h'.jumpsTo.trans h.jumpsTo, ?_, ?_,
    h'.output.trans h.output, h'.inputs.trans h.inputs⟩
  · intro f hf
    obtain ⟨f', hf', hop, hoff⟩ := h.fields f hf
    obtain ⟨f'', hf'', hop', hoff'⟩ := h'.fields f' hf'
    exact ⟨f'', hf'', hop'.trans hop, hoff'.trans hoff⟩
  · intro f f'' hf hf''
    obtain ⟨f', hf', _⟩ := h.fields f hf
    exact (h'.immediate f' f'' hf' hf'').trans (h.immediate f f' hf hf')

theorem Instr.SameOperation.of_word (hposition : j.position = i.position)
    (hjumps : j.jumpsTo = i.jumpsTo) (houtput : j.output = i.output)
    (hinputs : j.inputs.map Operand.nextUse = i.inputs.map Operand.nextUse) {q : Int}
    (h : Word.setTarget i.word q = .ok j.word ∨ Word.setSource i.word q = .ok j.word) :
    i.SameOperation j := by
  have hfields : ∀ f, Fields.decode i.word = .ok f → ∃ f', Fields.decode j.word = .ok f' ∧
      f'.opcode = f.opcode ∧ f'.offset = f.offset ∧ f'.immediate = f.immediate := by
    intro f hf
    rcases h with h | h
    · exact ⟨_, Word.decode_setTarget h hf, rfl, rfl, rfl⟩
    · exact ⟨_, Word.decode_setSource h hf, rfl, rfl, rfl⟩
  refine ⟨hposition, hjumps, ?_, ?_, by rw [houtput], hinputs⟩
  · intro f hf
    obtain ⟨f', hf', hop, hoff, _⟩ := hfields f hf
    exact ⟨f', hf', hop, hoff⟩
  · intro f f' hf hf'
    obtain ⟨g, hg, _, _, himm⟩ := hfields f hf
    obtain rfl := Except.ok.inj (hg.symm.trans hf')
    exact himm

/-- Two stores have the same operations. Where nothing was touched they have the same
    instructions. -/
structure SameOperations (touched : Nat → Prop) (old new : Array Instr) : Prop where
  size : new.size = old.size
  untouched : ∀ id : Nat, ¬ touched id → new[id]? = old[id]?
  operation : ∀ (id : Nat) (i : Instr), old[id]? = some i →
    ∃ j, new[id]? = some j ∧ i.SameOperation j

theorem SameOperations.refl (touched : Nat → Prop) (old : Array Instr) :
    SameOperations touched old old :=
  ⟨rfl, fun _ _ => rfl, fun _ i hi => ⟨i, hi, .refl i⟩⟩

theorem SameOperations.trans {x y z : Array Instr} (h : SameOperations touched x y)
    (h' : SameOperations touched y z) : SameOperations touched x z := by
  refine ⟨h'.size.trans h.size, ?_, ?_⟩
  · intro id hid
    exact (h'.untouched id hid).trans (h.untouched id hid)
  · intro id i hi
    obtain ⟨j, hj, hop⟩ := h.operation id i hi
    obtain ⟨k, hk, hop'⟩ := h'.operation id j hj
    exact ⟨k, hk, hop.trans hop'⟩

theorem SameOperations.mono {touched' : Nat → Prop} {new : Array Instr}
    (h : SameOperations touched old new) (hle : ∀ id, touched id → touched' id) :
    SameOperations touched' old new :=
  ⟨h.size, fun id hid => h.untouched id fun ht => hid (hle id ht), h.operation⟩

theorem SameOperations.origin {new : Array Instr} (h : SameOperations touched old new)
    (hj : new[id]? = some j) : ∃ i, old[id]? = some i ∧ i.SameOperation j := by
  have hlt : id < old.size := by
    have := lt_size hj
    rw [h.size] at this
    exact this
  have hsome : old[id]? = some old[id] := Array.getElem?_eq_getElem hlt
  obtain ⟨j', hj', hop⟩ := h.operation id _ hsome
  rw [hj] at hj'
  cases hj'
  exact ⟨_, hsome, hop⟩

/-- Only registers of instructions of a block, live ranges and what is reported
    differ from `s`. -/
structure Renamed (blk : Block) (s c : Compilation) : Prop where
  store : SameOperations (fun id => id ∈ blk.body) s.store c.store
  rest : c = { s with
    store := c.store, ranges := c.ranges, bounds := c.bounds, fusedMoves := c.fusedMoves
    fusedExits := c.fusedExits, printed := c.printed, drawings := c.drawings }

variable {blk : Block} {s t c : Compilation}

theorem Renamed.refl (blk : Block) (s : Compilation) : Renamed blk s s :=
  ⟨.refl _ _, rfl⟩

theorem renamed_inert : Inert (Renamed blk s) := by
  intro c bounds moves exits printed drawings h
  refine ⟨h.store, ?_⟩
  rw [h.rest]

section
variable (h : Renamed blk s c)
include h

theorem Renamed.setRanges (ranges : LiveRanges) : Renamed blk s { c with ranges } := by
  refine ⟨h.store, ?_⟩
  rw [h.rest]

theorem Renamed.blocks : c.blocks = s.blocks := by rw [h.rest]
theorem Renamed.table : c.table = s.table := by rw [h.rest]
theorem Renamed.schedule : c.schedule = s.schedule := by rw [h.rest]

theorem Renamed.tabled (hs : Tabled s) : Tabled c := by
  refine ⟨?_, ?_, ?_, ?_⟩
  · intro q id hq
    rw [h.blocks] at hq
    obtain ⟨i, hi, hpos⟩ := hs.instr q id hq
    obtain ⟨j, hj, hop⟩ := h.store.operation id i hi
    exact ⟨j, hj, hop.position.trans hpos⟩
  · rw [h.blocks]
    exact hs.unique
  · rw [h.blocks, h.table, h.schedule]
    exact hs.slot
  · rw [h.blocks, h.schedule]
    exact hs.numbered

theorem Renamed.setInstr (hid : id ∈ blk.body) (hi : c.store[id]? = some i)
    (hop : i.SameOperation j) : Renamed blk s { c with store := c.store.setIfInBounds id j } := by
  refine ⟨h.store.trans ⟨Array.size_setIfInBounds, ?_, ?_⟩, ?_⟩
  · intro id' hid'
    have hne : id ≠ id' := fun heq => hid' (heq ▸ hid)
    exact Array.getElem?_setIfInBounds_ne hne
  · intro id' i' hi'
    by_cases heq : id = id'
    · subst heq
      obtain rfl := Option.mem_unique hi hi'
      have hlt := lt_size hi
      exact ⟨j, Array.getElem?_setIfInBounds_self_of_lt hlt, hop⟩
    · exact ⟨i', (Array.getElem?_setIfInBounds_ne heq).trans hi', .refl i'⟩
  · rw [h.rest]

end

/-! ## Putting instructions back -/

theorem keeps_setSlot_same {row lane : Int} (h : Table.entry c.table row lane = some (some id)) :
    Keeps (fun t => t = c) (setSlot row lane id) := by
  obtain ⟨hrow, hlane, r, hr, hid⟩ := Table.entry_eq_some_iff.mp h
  refine gives_bind (gives_get fun t ht => ht) fun t ht => ?_
  subst ht
  refine gives_bind (P := fun r' => r' = r) (gives_lift ?_) fun r' hr' => ?_
  · intro r' hr'
    rw [Position.get_of_nonneg hrow, hr] at hr'
    exact (Option.some.inj hr').symm
  refine gives_bind (P := fun x => x = r') (gives_lift ?_) fun x hx => ?_
  · intro x hx
    obtain ⟨_, rfl⟩ := (Position.set_of_nonneg hlane).mp hx
    grind
  refine gives_bind (P := fun y => y = t.table) (gives_lift ?_) fun y hy => ?_
  · intro y hy
    obtain ⟨_, rfl⟩ := (Position.set_of_nonneg hrow).mp hy
    grind
  subst hy
  exact keeps_set rfl

theorem keeps_refreshSlot_same {q : Nat} (hc : Tabled c) (hq : Numbered c.blocks q id) :
    Keeps (fun t => t = c) (Renaming.refreshSlot id) := by
  obtain ⟨i, hi, hpos⟩ := hc.instr q id hq
  have hread : Gives (fun t => t = c) (fun i' => i' = i) (instr id) := by
    refine gives_of_runs keeps_instr ?_
    rintro t i' u rfl hr
    obtain ⟨hi', _⟩ := runs_instr.mp hr
    rw [hi] at hi'
    exact (Option.some.inj hi').symm
  refine gives_bind hread fun i' hi' => ?_
  subst hi'
  refine gives_bind (P := fun pl => c.schedule[q]? = some pl)
    (gives_of_runs keeps_placeOf ?_) fun pl hpl => ?_
  · rintro t pl u rfl hr
    obtain ⟨q', hq', hpl, _⟩ := runs_placeOf.mp hr
    rw [hpos] at hq'
    cases hq'
    exact Position.get_natCast.mp hpl
  cases hlane : pl.lane with
  | none => exact keeps_pure _
  | some lane =>
    have hslot := (hc.slot pl.time lane id).mpr ⟨q, pl, hq, hpl, rfl, hlane⟩
    refine gives_bind (P := fun x => x = some id) (gives_of_runs keeps_slot ?_) fun x hx => ?_
    · rintro t x u rfl hr
      obtain ⟨r, hr, hx, _⟩ := runs_slot.mp hr
      obtain ⟨hrow, hln, _⟩ := Table.entry_eq_some_iff.mp hslot
      have hentry := Table.entry_of_get hrow hln hr hx
      rw [hslot] at hentry
      exact (Option.some.inj hentry).symm
    refine keeps_bind (keeps_lift _) fun id' => keeps_bind keeps_instr fun held => ?_
    exact keeps_ite (keeps_setSlot_same hslot) (keeps_pure _)

/-! ## What renaming does -/

theorem Renaming.freeRegister_spec {liveOut : RegMap} {used : List Int}
    (h : freeRegister liveOut used = .ok new) : (0 ≤ new ∧ new < 2 ^ 4) ∧ new ∉ used := by
  unfold freeRegister at h
  split at h
  · next r hfind =>
    cases h
    have hlt := List.mem_range.mp (List.mem_of_find?_eq_some hfind)
    have htest := List.find?_some hfind
    simp only [Bool.and_eq_true, Bool.not_eq_true', List.contains_eq_mem,
      decide_eq_false_iff_not] at htest
    exact ⟨by omega, htest.2⟩
  · cases h

/-- Another register for what an instruction writes. It gets stuck in a text without an
    assignment sign after the word was changed. -/
inductive Instr.Rewrites (old new : Int) (i : Instr) : Instr → Prop where
  | stuck {o : Operand} {w : Word} {e : Fault} (hnew : 0 ≤ new ∧ new < 2 ^ 4)
    (ho : i.output = some o) (hold : o.register = old) (hw : Word.setTarget i.word new = .ok w)
    (htext : Mnemonic.renameOutput i.text old new = .error e) :
    Rewrites old new i { i with word := w }
  | done {o : Operand} {w : Word} {text : String} (hnew : 0 ≤ new ∧ new < 2 ^ 4)
    (ho : i.output = some o) (hold : o.register = old) (hw : Word.setTarget i.word new = .ok w) :
    Rewrites old new i { i with word := w, text, output := some { o with register := new } }

/-- Another register for one input of an instruction: first in its text, then in its word,
    where it always goes into the source field. -/
inductive Instr.Rereads (old new : Int) (i : Instr) : Instr → Prop where
  | text {text : String} : Rereads old new i { i with text }
  | done {k : Nat} {o : Operand} {w : Word} (hnew : 0 ≤ new ∧ new < 2 ^ 4)
    (ho : i.inputs[k]? = some o) (hold : o.register = old) (hw : Word.setSource i.word new = .ok w) :
    Rereads old new i { i with word := w, inputs := i.inputs.set k { o with register := new } }

theorem Instr.Rewrites.sameOperation {old : Int} (h : i.Rewrites old new j) :
    i.SameOperation j := by
  cases h with
  | stuck hnew ho hold hw htext => exact .of_word rfl rfl rfl rfl (.inl hw)
  | @done o w text hnew ho hold hw =>
    have hword : i.SameOperation { i with word := w } := .of_word rfl rfl rfl rfl (.inl hw)
    exact hword.trans (.of_same_word rfl rfl rfl (by simp [ho]) rfl)

theorem Instr.Rereads.sameOperation {old : Int} (h : i.Rereads old new j) : i.SameOperation j := by
  cases h with
  | text => exact .of_same_word rfl rfl rfl rfl rfl
  | done hnew ho hold hw =>
    refine .of_word rfl rfl rfl (List.ext_getElem? fun m => ?_) (.inr hw)
    grind

/-- The states that a renaming of the value of instruction `n` of a block may leave behind
    once it has begun: that instruction was changed first, then some of those that read the
    value, but not the last one of the block. -/
inductive Edited (blk : Block) (g : Digraph) (n old new : Int) (s : Compilation) :
    Compilation → Prop where
  | writer {id : Nat} {i j : Instr} (hid : Position.get blk.body n = .ok id)
    (hi : s.store[id]? = some i) (hj : i.Rewrites old new j) :
    Edited blk g n old new s { s with store := s.store.setIfInBounds id j }
  | reader {c : Compilation} {m : Int} {id : Nat} {i j : Instr} (h : Edited blk g n old new s c)
    (hm : (n, m) ∈ g.edges ∧ m ≠ (blk.body.size : Int) - 1) (hid : Position.get blk.body m = .ok id)
    (hi : c.store[id]? = some i) (hj : i.Rereads old new j) :
    Edited blk g n old new s { c with store := c.store.setIfInBounds id j }

/-- The states that an attempt to rename the value of instruction `n` may leave behind. -/
inductive Attempted (blk : Block) (g : Digraph) (n row : Int) (used : List Int) (s : Compilation) :
    Compilation → Prop where
  | unchanged : Attempted blk g n row used s s
  | edited {c : Compilation} {old new : Int}
    (hnew : Renaming.freeRegister blk.liveOut used = .ok new) (h : Edited blk g n old new s c) :
    Attempted blk g n row used s c
  | recorded {c : Compilation} {id : Nat} {i : Instr} {old new p : Int}
    (h : Attempted blk g n row used s c) (hid : Position.get blk.body n = .ok id)
    (hi : c.store[id]? = some i) (hp : i.position = some p) :
    Attempted blk g n row used s { c with ranges := c.ranges.rename old new p row }

theorem Digraph.mem_successors {g : Digraph} (h : g.successors n = .ok ns) (hm : m ∈ ns) :
    (n, m) ∈ g.edges := by
  unfold Digraph.successors at h
  split at h
  · cases h
    obtain ⟨e, he, rfl⟩ := List.mem_map.mp hm
    obtain ⟨hmem, heq⟩ := List.mem_filter.mp he
    rwa [← eq_of_beq heq]
  · cases h

theorem mem_of_get {α : Type} {xs : Array α} {a : α} (h : Position.get xs n = .ok a) : a ∈ xs := by
  obtain ⟨k, _, hk⟩ := Position.get_eq_ok_iff.mp h
  exact Array.mem_of_getElem? hk

section
variable {g : Digraph} {row old : Int} {used : List Int}

theorem Edited.renamed (h : Edited blk g n old new s c) : Renamed blk s c := by
  induction h with
  | writer hid hi hj => exact (Renamed.refl blk s).setInstr (mem_of_get hid) hi hj.sameOperation
  | reader h hm hid hi hj ih => exact ih.setInstr (mem_of_get hid) hi hj.sameOperation

theorem Edited.ranges (h : Edited blk g n old new s c) : c.ranges = s.ranges := by
  induction h with
  | writer hid hi hj => rfl
  | reader h hm hid hi hj ih => exact ih

theorem Attempted.renamed (h : Attempted blk g n row used s c) : Renamed blk s c := by
  induction h with
  | unchanged => exact .refl blk s
  | edited hnew h => exact h.renamed
  | recorded h _ _ _ ih => exact ih.setRanges _

theorem Attempted.ranges {P : LiveRanges → Prop} (h : Attempted blk g n row used s c)
    (hs : P s.ranges) (hrename : ∀ rs old new p, P rs → P (rs.rename old new p row)) :
    P c.ranges := by
  induction h with
  | unchanged => exact hs
  | edited hnew h => exact h.ranges ▸ hs
  | recorded h _ _ _ ih => exact hrename _ _ _ _ ih

/-! ## Renaming -/

variable {b : Nat} (hs : Tabled s) (hb : s.blocks[b]? = some blk) (hkind : blk.kind = .basic)
include hs hb hkind

theorem keeps_refreshSlot (hid : id ∈ blk.body) :
    Keeps (Edited blk g n old new s) (Renaming.refreshSlot id) := by
  refine keeps_of_same fun c hc => ?_
  obtain ⟨k, hk⟩ := Array.mem_iff_getElem?.mp hid
  have hq : Numbered c.blocks (blk.start.toNat + k) id := by
    rw [hc.renamed.blocks]
    exact ⟨b, blk, k, hb, hkind, hk, rfl⟩
  exact keeps_refreshSlot_same (hc.renamed.tabled hs) hq

theorem ends_renameOutput (hnew : 0 ≤ new ∧ new < 2 ^ 4) (hid : Position.get blk.body n = .ok id)
    (hi : s.store[id]? = some i) (ho : i.output = some o) (hold : o.register = old)
    (hw : Word.setTarget i.word new = .ok w) :
    EndsIn (Edited blk g n old new s) (fun _ => True) ((Renaming.renameOutput id new).run s) := by
  have hlt := lt_size hi
  unfold Renaming.renameOutput
  rw [(runs_instr.mpr ⟨hi, rfl⟩).run_bind, (runs_lift.mpr ⟨need_eq_ok_iff.mpr ho, rfl⟩).run_bind,
    (runs_lift.mpr ⟨hw, rfl⟩).run_bind, setInstr_run_bind]
  cases htext : Mnemonic.renameOutput i.text o.register new with
  | error e => exact .writer hid hi (.stuck hnew ho hold hw (hold ▸ htext))
  | ok text =>
    rw [(runs_lift.mpr ⟨rfl, rfl⟩).run_bind,
      (runs_instr.mpr ⟨Array.getElem?_setIfInBounds_self_of_lt hlt, rfl⟩).run_bind,
      setInstr_run_bind]
    refine keeps_refreshSlot hs hb hkind (mem_of_get hid) _ ?_
    rw [Array.setIfInBounds_setIfInBounds]
    exact .writer hid hi (.done hnew ho hold hw)

theorem keeps_renameInput {k : Nat} (hnew : 0 ≤ new ∧ new < 2 ^ 4)
    (hm : (n, m) ∈ g.edges ∧ m ≠ (blk.body.size : Int) - 1)
    (hid : Position.get blk.body m = .ok id) :
    Keeps (Edited blk g n old new s) (Renaming.renameInput id old new k) := by
  intro c hc
  refine ends_look (fun _ => keeps_instr) hc fun i hi => ?_
  obtain ⟨hi, _⟩ := runs_instr.mp hi
  have hlt := lt_size hi
  split
  · exact keeps_pure _ c hc
  next o ho =>
  split
  · next hold =>
    refine ends_look (fun _ => keeps_lift _) hc fun text _ => ?_
    have hc₁ : Edited blk g n old new s { c with store := c.store.setIfInBounds id { i with text } } :=
      hc.reader hm hid hi .text
    rw [setInstr_run_bind]
    refine ends_look (fun _ => keeps_lift _) hc₁ fun w hw => ?_
    refine keeps_refreshSlot hs hb hkind (mem_of_get hid) _ ?_
    exact hc₁.reader hm hid (Array.getElem?_setIfInBounds_self_of_lt hlt)
      (.done hnew ho (eq_of_beq hold) (runs_lift.mp hw).1)
  · exact keeps_pure _ c hc

theorem keeps_renameReaders (hnew : 0 ≤ new ∧ new < 2 ^ 4)
    (hns : ∀ m ∈ ns, (n, m) ∈ g.edges ∧ m ≠ (blk.body.size : Int) - 1) :
    Keeps (Edited blk g n old new s) (Renaming.renameReaders blk old new ns) := by
  induction ns with
  | nil => exact keeps_pure _
  | cons m ns ih =>
    refine gives_bind (P := fun id => Position.get blk.body m = .ok id)
      (gives_lift fun id hid => hid) fun id hid => keeps_bind keeps_instr fun i => ?_
    refine keeps_bind (keeps_forM fun k _ =>
      keeps_renameInput hs hb hkind hnew (hns m List.mem_cons_self) hid) fun _ => ?_
    refine keeps_bind keeps_instr fun j => keeps_bind keeps_fieldsOf fun f => ?_
    exact keeps_ite (ih fun m' hm' => hns m' (List.mem_cons_of_mem _ hm')) (keeps_pure _)

theorem ends_rename (hns : ∀ m ∈ ns, (n, m) ∈ g.edges ∧ m ≠ (blk.body.size : Int) - 1)
    (hnew : Renaming.freeRegister blk.liveOut used = .ok new)
    (hid : Position.get blk.body n = .ok id) (hi : s.store[id]? = some i) (ho : i.output = some o)
    (hw : Word.setTarget i.word new = .ok w) :
    EndsIn (Edited blk g n o.register new s) (fun _ => True)
      ((Renaming.rename (n :: ns) b used).run s) := by
  unfold Renaming.rename
  rw [(runs_block.mpr ⟨Position.get_natCast.mpr hb, rfl⟩).run_bind]
  dsimp only
  rw [(runs_lift.mpr ⟨hnew, rfl⟩).run_bind, (runs_idAt.mpr ⟨hid, rfl⟩).run_bind,
    (runs_instr.mpr ⟨hi, rfl⟩).run_bind, (runs_lift.mpr ⟨need_eq_ok_iff.mpr ho, rfl⟩).run_bind]
  obtain ⟨hrange, _⟩ := Renaming.freeRegister_spec hnew
  exact (ends_renameOutput hs hb hkind hrange hid hi ho rfl hw).bind fun _ _ =>
    keeps_bind (keeps_renameReaders hs hb hkind hrange hns) fun _ => keeps_pure _

theorem ends_renameValue :
    EndsIn (Attempted blk g n row used s) (fun _ => True)
      ((Schedule.renameValue b blk g n row old used).run s) := by
  unfold Schedule.renameValue
  refine ends_look (fun _ => keeps_lift _) .unchanged fun ns hns => ?_
  refine EndsIn.bind (P := fun _ => True) ?_ fun _ _ => ?_
  · by_cases hbegins : ∃ new id i o w, Renaming.freeRegister blk.liveOut used = .ok new ∧
        Position.get blk.body n = .ok id ∧ s.store[id]? = some i ∧ i.output = some o ∧
        Word.setTarget i.word new = .ok w
    · obtain ⟨new, id, i, o, w, hnew, hid, hi, ho, hw⟩ := hbegins
      refine (ends_rename hs hb hkind ?_ hnew hid hi ho hw).mono fun t ht => .edited hnew ht
      intro m hm
      obtain ⟨hmem, hne⟩ := List.mem_filter.mp hm
      exact ⟨Digraph.mem_successors (runs_lift.mp hns).1 hmem, by simpa using hne⟩
    · -- nothing but looking up comes before the first change
      unfold Renaming.rename Renaming.renameOutput
      simp only [bind_assoc]
      rw [(runs_block.mpr ⟨Position.get_natCast.mpr hb, rfl⟩).run_bind]
      refine ends_look (fun _ => keeps_lift _) .unchanged fun new hnew => ?_
      refine ends_look (fun _ => keeps_idAt) .unchanged fun id hid => ?_
      refine ends_look (fun _ => keeps_instr) .unchanged fun _ _ => ?_
      refine ends_look (fun _ => keeps_lift _) .unchanged fun _ _ => ?_
      refine ends_look (fun _ => keeps_instr) .unchanged fun i hi => ?_
      refine ends_look (fun _ => keeps_lift _) .unchanged fun o ho => ?_
      refine ends_look (fun _ => keeps_lift _) .unchanged fun w hw => ?_
      exact absurd ⟨new, id, i, o, w, (runs_lift.mp hnew).1, (runs_idAt.mp hid).1,
        (runs_instr.mp hi).1, need_eq_ok_iff.mp (runs_lift.mp ho).1, (runs_lift.mp hw).1⟩ hbegins
  · intro c hc
    refine ends_look (fun _ => keeps_instrAt) hc fun i hi => ?_
    obtain ⟨id, hid, hi, _⟩ := runs_instrAt.mp hi
    refine ends_look (fun _ => keeps_lift _) hc fun o _ => ?_
    refine ends_look (fun _ => keeps_lift _) hc fun p hp => ?_
    exact ⟨trivial, .recorded hc hid hi (need_eq_ok_iff.mp (runs_lift.mp hp).1)⟩

theorem attempted_of_runs {u : Unit}
    (h : Runs (Schedule.renameValue b blk g n row old used) s u c) :
    Attempted blk g n row used s c :=
  ((ends_renameValue hs hb hkind).runs h).2

theorem attempted_of_fails {e : Fault}
    (h : Fails (Schedule.renameValue b blk g n row old used) s e c) :
    Attempted blk g n row used s c :=
  (ends_renameValue hs hb hkind).fails h

end
end BpfLanes
