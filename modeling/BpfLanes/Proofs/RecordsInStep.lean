import BpfLanes.Proofs.ValueRecords

/-! # Records and words

An instruction is on record with the registers that it reads and writes, which its word
names as well. Renaming changes both. What is read is always renamed in the source field
of the word, so an instruction that reads its target field gets out of step. What is
written is renamed in the word first, and a text without an assignment sign then keeps
the record as it was.
-/

namespace BpfLanes

open Compilation BpfLanes.Flow

variable {blk : Block} {f : Fields} {i j : Instr}

/-! ## One instruction -/

/-- The registers that are on record as read are those that the word reads, in order. -/
def Instr.InputsInStep (j : Instr) (f : Fields) : Prop :=
  j.inputs.map Operand.register = f.inputs

/-- The register that is on record as written is the one that the word writes. -/
def Instr.OutputInStep (j : Instr) (f : Fields) : Prop :=
  j.output.map Operand.register = if f.isNop then none else f.output?

/-- Registers after renaming: each time, the one at some index gets a new name. -/
def renameEach (registers : List Int) (renamed : List (Nat × Int)) : List Int :=
  renamed.foldl (fun rs x => rs.set x.1 x.2) registers

/-- The name that was given last, if there is one. -/
def lastName (r : Int) (renamed : List (Nat × Int)) : Int :=
  (renamed.getLast?.map Prod.snd).getD r

variable {registers : List Int} {renamed : List (Nat × Int)} {a b x y : Int}

theorem renameEach_snoc {z : Nat × Int} :
    renameEach registers (renamed ++ [z]) = (renameEach registers renamed).set z.1 z.2 := by
  simp [renameEach]

theorem lastName_snoc {z : Nat × Int} : lastName a (renamed ++ [z]) = z.2 := by
  simp [lastName]

theorem length_renameEach (registers : List Int) (renamed : List (Nat × Int)) :
    (renameEach registers renamed).length = registers.length := by
  unfold renameEach
  induction renamed generalizing registers with
  | nil => rfl
  | cons z renamed ih => rw [List.foldl_cons, ih, List.length_set]

theorem renameEach_singleton (h : ∀ z ∈ renamed, z.1 < 1) :
    renameEach [a] renamed = [lastName a renamed] := by
  rcases List.eq_nil_or_concat renamed with rfl | ⟨pre, z, rfl⟩
  · rfl
  · obtain ⟨x, hx⟩ := List.length_eq_one_iff.mp (length_renameEach [a] pre)
    rw [List.concat_eq_append] at h ⊢
    rw [renameEach_snoc, lastName_snoc, hx, Nat.lt_one_iff.mp (h z (by simp))]
    rfl

/-- The first of two registers has the name that was given last, unless the second was
    renamed after it. -/
theorem renameEach_pair (h : ∀ z ∈ renamed, z.1 < 2) (hxy : renameEach [a, b] renamed = [x, y]) :
    x = lastName a renamed ↔ ∀ z ∈ renamed.getLast?, z.1 = 1 → x = z.2 := by
  rcases List.eq_nil_or_concat renamed with rfl | ⟨pre, z, rfl⟩
  · obtain ⟨rfl, _⟩ : a = x ∧ b = y := by simpa [renameEach] using hxy
    simp [lastName]
  obtain ⟨x₀, y₀, hpre⟩ := List.length_eq_two.mp (length_renameEach [a, b] pre)
  rw [List.concat_eq_append] at h hxy ⊢
  rw [renameEach_snoc, hpre] at hxy
  rw [lastName_snoc, List.getLast?_concat]
  have hz := h z (by simp)
  obtain hz | hz : z.1 = 0 ∨ z.1 = 1 := by omega
  · rw [hz] at hxy
    obtain ⟨rfl, _⟩ : z.2 = x ∧ y₀ = y := by simpa using hxy
    simp [hz]
  · simp [hz]

variable {m : Instr}

theorem Instr.Reread.fields (h : i.Reread m) (hf : Fields.decode i.word = .ok f) :
    ∃ renamed, Fields.decode m.word = .ok { f with src := lastName f.src renamed } ∧
      m.output = i.output ∧
      m.inputs.map Operand.register = renameEach (i.inputs.map Operand.register) renamed ∧
      ∀ x ∈ renamed, x.1 < (i.inputs.map Operand.register).length := by
  induction h with
  | refl => exact ⟨[], hf, rfl, rfl, by simp⟩
  | tail _ hstep ih =>
    obtain ⟨renamed, hs, hout, hregs, hbound⟩ := ih
    obtain ⟨old, new, hstep⟩ := hstep
    cases hstep with
    | text => exact ⟨renamed, hs, hout, hregs, hbound⟩
    | @done k o w hnew ho hold hw =>
      have hsrc : new % 2 ^ 4 = new := Int.emod_eq_of_lt hnew.1 hnew.2
      have hlt := (List.getElem?_eq_some_iff.mp ho).1
      rw [← List.length_map (f := Operand.register), hregs, length_renameEach] at hlt
      refine ⟨renamed ++ [(k, new)], ?_, hout, ?_,
        List.forall_mem_append.mpr ⟨hbound, List.forall_mem_singleton.mpr hlt⟩⟩
      · rw [Word.decode_setSource hw hs, hsrc, lastName_snoc]
      · rw [List.map_set, hregs, renameEach_snoc]

theorem Instr.Rewritten.fields (h : m.Rewritten j) (hf : Fields.decode m.word = .ok f) :
    ∃ t, Fields.decode j.word = .ok { f with dst := t } ∧ j.inputs = m.inputs ∧
      (t = f.dst ∧ j.output = m.output ∨ ∃ o, m.output = some o ∧ o.register ≠ t ∧
        (j.output = some { o with register := t } ∨
          j.output = some o ∧ ∃ e, Mnemonic.sides j.text = .error e)) := by
  cases h with
  | kept => exact ⟨f.dst, hf, rfl, Or.inl ⟨rfl, rfl⟩⟩
  | renamed hne h =>
    have hdst : ∀ {new : Int}, 0 ≤ new ∧ new < 2 ^ 4 → new % 2 ^ 4 = new :=
      fun h => Int.emod_eq_of_lt h.1 h.2
    cases h with
    | @stuck o w e hnew ho hold hw htext =>
      refine ⟨_, by rw [Word.decode_setTarget hw hf, hdst hnew], rfl, Or.inr ⟨o, ho, ?_, ?_⟩⟩
      · rwa [hold]
      refine Or.inr ⟨ho, ?_⟩
      unfold Mnemonic.renameOutput at htext
      cases hsides : Mnemonic.sides m.text with
      | error e' => exact ⟨e', rfl⟩
      | ok parts =>
        rw [hsides] at htext
        cases htext
    | @done o w text hnew ho hold hw =>
      refine ⟨_, by rw [Word.decode_setTarget hw hf, hdst hnew], rfl, .inr ⟨o, ho, ?_, .inl rfl⟩⟩
      rwa [hold]

/-- How the record of an instruction and its word go together in the end, if `i` with the
    fields `f` is how it was parsed and `j` with the fields `f'` is what became of it. -/
structure Instr.Tracks (i j : Instr) (f f' : Fields) : Prop where
  /-- nothing but registers changed in the word -/
  fields : f' = { f with src := f'.src, dst := f'.dst }
  /-- what is written is in step if the word kept its target or the record changed as well -/
  output : j.OutputInStep f' ↔ f'.dst = f.dst ∨ j.output ≠ i.output
  /-- what writes nothing keeps its target field -/
  silent : i.output = none → j.output = none ∧ f'.dst = f.dst
  /-- with an assignment sign in its text it is always in step -/
  assigned : (∃ sides, Mnemonic.sides j.text = .ok sides) → j.OutputInStep f'
  /-- With each renaming of what is read, one register changes on record, and in the word
      always the source field. So it is in step where only that field is read. Where the
      target field is read, what is written has to get the same name, and if both are
      read, the second may be renamed last only to the name of the first. -/
  inputs : ∃ renamed, j.inputs.map Operand.register = renameEach f.inputs renamed ∧
    f'.src = lastName f.src renamed ∧ (∀ x ∈ renamed, x.1 < f.inputs.length) ∧
    (j.InputsInStep f' ↔ (f.opcode ∈ Opcode.readsTarget → f'.dst = lastName f.dst renamed) ∧
      (f.opcode ∈ Opcode.readsBoth → ∃ x, j.inputs.map Operand.register = [x, f'.dst] ∧
        ∀ z ∈ renamed.getLast?, z.1 = 1 → x = z.2))

theorem Opcode.not_readsTarget_of_readsSource : ∀ o ∈ Opcode.readsSource,
    o ∉ Opcode.readsTarget ∧ o ∉ Opcode.readsBoth := by
  decide

theorem Opcode.not_readsBoth_of_readsTarget : ∀ o ∈ Opcode.readsTarget, o ∉ Opcode.readsBoth := by
  decide

theorem Instr.inputsInStep_iff {f' : Fields} (hop : f'.opcode = f.opcode)
    (hregs : j.inputs.map Operand.register = renameEach f.inputs renamed)
    (hbound : ∀ x ∈ renamed, x.1 < f.inputs.length) (hsrc : f'.src = lastName f.src renamed)
    (hexit : f.isExit = true → j.inputs.map Operand.register = f.inputs) :
    j.InputsInStep f' ↔ (f.opcode ∈ Opcode.readsTarget → f'.dst = lastName f.dst renamed) ∧
      (f.opcode ∈ Opcode.readsBoth → ∃ x, j.inputs.map Operand.register = [x, f'.dst] ∧
        ∀ z ∈ renamed.getLast?, z.1 = 1 → x = z.2) := by
  unfold Instr.InputsInStep
  -- one case for each kind of instruction
  by_cases hsource : f.opcode ∈ Opcode.readsSource
  · obtain ⟨htarget, hboth⟩ := Opcode.not_readsTarget_of_readsSource _ hsource
    have hf : f.inputs = [f.src] := by simp [Fields.inputs, hsource]
    have hf' : f'.inputs = [f'.src] := by simp [Fields.inputs, hop, hsource]
    rw [hf] at hregs hbound
    refine iff_of_true ?_ ⟨fun h => absurd h htarget, fun h => absurd h hboth⟩
    rw [hregs, hf', hsrc, renameEach_singleton hbound]
  by_cases htarget : f.opcode ∈ Opcode.readsTarget
  · have hboth := Opcode.not_readsBoth_of_readsTarget _ htarget
    have hf : f.inputs = [f.dst] := by simp [Fields.inputs, hsource, htarget]
    have hf' : f'.inputs = [f'.dst] := by simp [Fields.inputs, hop, hsource, htarget]
    rw [hf] at hregs hbound
    rw [hregs, hf', renameEach_singleton hbound]
    simp [htarget, hboth, eq_comm]
  by_cases hboth : f.opcode ∈ Opcode.readsBoth
  · have hf : f.inputs = [f.src, f.dst] := by simp [Fields.inputs, hsource, htarget, hboth]
    have hf' : f'.inputs = [f'.src, f'.dst] := by simp [Fields.inputs, hop, hsource, htarget, hboth]
    rw [hf] at hregs hbound
    obtain ⟨x, y, hxy⟩ := List.length_eq_two.mp (length_renameEach [f.src, f.dst] renamed)
    have hfirst := renameEach_pair hbound hxy
    rw [hregs, hxy, hf', hsrc]
    simp only [htarget, hboth, List.cons.injEq, and_true, hfirst]
    constructor
    · rintro ⟨hlast, rfl⟩
      exact ⟨nofun, fun _ => ⟨x, ⟨rfl, rfl⟩, hlast⟩⟩
    · rintro ⟨_, h⟩
      obtain ⟨_, ⟨rfl, rfl⟩, hlast⟩ := h trivial
      exact ⟨hlast, rfl⟩
  · refine iff_of_true ?_ ⟨fun h => absurd h htarget, fun h => absurd h hboth⟩
    have hsame : f'.inputs = f.inputs := by
      simp [Fields.inputs, Fields.isExit, hop, hsource, htarget, hboth]
    rw [hsame]
    cases hx : f.isExit with
    | true => exact hexit hx
    | false =>
      have hnil : f.inputs = [] := by simp [Fields.inputs, hsource, htarget, hboth, hx]
      rw [hregs, hnil]
      exact List.length_eq_zero_iff.mp (length_renameEach _ _)

theorem Instr.OutputInStep.written {o : Operand} {s t : Int} (h : i.OutputInStep f)
    (ho : i.output = some o) : o.register = f.dst ∧
      (j.OutputInStep { f with src := s, dst := t } ↔ j.output.map Operand.register = some t) := by
  unfold Instr.OutputInStep Fields.output? Fields.isNop at h ⊢
  rw [ho] at h
  split at h
  · cases h
  next hnop =>
  split at h
  · cases h
  next hwrites =>
  rw [if_neg hnop, if_neg hwrites]
  exact ⟨Option.some.inj h, Iff.rfl⟩

/-- The record and the word of an instruction after it was reworked. -/
theorem Schedule.Reworked.tracks {k : Nat} (h : Schedule.Reworked blk k i j)
    (hf : Fields.decode i.word = .ok f) (hin : i.InputsInStep f) (hout : i.OutputInStep f)
    (hexit : f.isExit = true → k + 1 = blk.body.size) :
    ∃ f', Fields.decode j.word = .ok f' ∧ i.Tracks j f f' := by
  obtain ⟨m, ⟨hreread, hlast⟩, hrewritten⟩ := h
  obtain ⟨renamed, hs, houtput, hregs, hbound⟩ := hreread.fields hf
  obtain ⟨t, ht, hinputs, hcase⟩ := hrewritten.fields hs
  rw [← hinputs, hin] at hregs
  rw [hin] at hbound
  have hkept : f.isExit = true → j.inputs.map Operand.register = f.inputs := fun h => by
    rw [hinputs, hlast (hexit h), hin]
  have hsilent : i.output = none → j.output = none ∧ t = f.dst := by
    intro hnone
    rcases hcase with ⟨ht, hsame⟩ | ⟨o, ho, _⟩
    · exact ⟨hsame.trans (houtput.trans hnone), ht⟩
    · rw [houtput, hnone] at ho
      cases ho
  obtain ⟨s, hsrc⟩ : ∃ s, s = lastName f.src renamed := ⟨_, rfl⟩
  rw [← hsrc] at ht
  have hread : j.InputsInStep { f with src := s, dst := t } ↔ _ :=
    Instr.inputsInStep_iff (f := f) rfl hregs hbound hsrc hkept
  suffices hwritten : (j.OutputInStep { f with src := s, dst := t } ↔
      t = f.dst ∨ j.output ≠ i.output) ∧ ((∃ sides, Mnemonic.sides j.text = .ok sides) →
      j.OutputInStep { f with src := s, dst := t }) from
    ⟨_, ht, rfl, hwritten.1, hsilent, hwritten.2, renamed, hregs, hsrc, hbound, hread⟩
  rcases hcase with ⟨rfl, hsame⟩ | ⟨o, ho, hne, hcase⟩
  · have hstep : j.OutputInStep { f with src := s } := by
      unfold Instr.OutputInStep
      rwa [hsame, houtput]
    exact ⟨iff_of_true hstep (.inl rfl), fun _ => hstep⟩
  rw [houtput] at ho
  obtain ⟨hreg, hstep⟩ := hout.written ho (s := s) (t := t)
  rw [hreg] at hne
  rcases hcase with hdone | ⟨hstuck, e, he⟩
  · have hj : j.OutputInStep { f with src := s, dst := t } := hstep.mpr (by rw [hdone]; rfl)
    refine ⟨iff_of_true hj (.inr ?_), fun _ => hj⟩
    rw [hdone, ho]
    intro heq
    have hsame := congrArg Operand.register (Option.some.inj heq)
    exact hne (hreg.symm.trans hsame.symm)
  · refine ⟨iff_of_false ?_ ?_, fun hsides => ?_⟩
    · rw [hstep, hstuck]
      intro heq
      exact hne (hreg.symm.trans (Option.some.inj heq))
    · rintro (heq | hdiff)
      · exact hne heq.symm
      · exact hdiff (hstuck.trans ho.symm)
    · rw [he] at hsides
      obtain ⟨_, hsides⟩ := hsides
      cases hsides

namespace Schedule

/-! ## All instructions -/

/-- The instructions of a block were reworked since they were parsed. -/
def AllReworked (c e : Compilation) (blk : Block) : Prop :=
  ∀ (k id : Nat) (i : Instr), blk.body[k]? = some id → c.store[id]? = some i →
    ∃ j, e.store[id]? = some j ∧ Reworked blk k i j

theorem Opened.allReworked {Q : Instr → Prop} {words : Array Word} {c c₀ e : Compilation} {b : Nat}
    {g : Digraph} {order : List Int} {r r' : Reach} (hc : Laid Q words c)
    (ho : Opened c c₀ b blk g r.row order)
    (h : Runs (order.foldlM (placeInstr b blk g r.row) r) c₀ r' e) : AllReworked c e blk := by
  intro k id i hid hi
  have hd := runs_placeInstrs ho.ready ho.edges ho.places ho.last (List.prefix_refl _) h
  rw [← ho.same id (Array.mem_of_getElem? hid)] at hi
  exact (ho.history hc hd hid).2.instr i hi

/-- Records and words of a schedule. What is in a slot was in step when it was parsed, and
    keeps in step but for its target field: a register that is read there is renamed on
    record, but not in the word. What is written stays in step as long as texts have an
    assignment sign. -/
theorem slot_tracks {target : Target} {options : Options} {words : Array Word}
    {texts : Array String} (hwords : NoJumpBefore words) {c e : Compilation}
    (hprep : Runs Optimize.prepare (start target options words texts) () c)
    (hplace : Runs placeAll c () e) {row lane : Int} {id : Nat}
    (hslot : Table.entry e.table row lane = some (some id)) :
    ∃ i j f f', c.store[id]? = some i ∧ e.store[id]? = some j ∧ Fields.decode i.word = .ok f ∧
      Fields.decode j.word = .ok f' ∧ i.InputsInStep f ∧ i.OutputInStep f ∧ i.Tracks j f f' := by
  obtain ⟨parsed, hready⟩ := placeable_of_prepare hwords hprep
  have hc := hready.laid
  obtain ⟨order, r, hlists, hd⟩ := progress_of_placeAll hc hready.unplaced hplace
  -- a slot holds an instruction of some block
  obtain ⟨q, pl, ⟨b, blk, k, hb, hkind, hk, rfl⟩, _⟩ := (hd.tabled.slot row lane id).mp hslot
  rw [hd.frame.blocks] at hb
  have hlt := lt_size hk
  obtain ⟨id', i, f, hid', hi, hstands, hf⟩ := hc.standsFor_index hb hkind hlt
  obtain rfl := Option.mem_unique hk hid'
  obtain ⟨f₀, hf₀, hin, hout⟩ := hstands.operands
  obtain rfl := Except.ok.inj (hf.symm.trans hf₀)
  have hall : AllReworked c e blk := forall_entered_of_placeAll hc hready.unplaced hready.sized
    (fun _ _ _ _ _ _ _ _ ho hr => ho.opened.allReworked hc hr)
    (fun _ _ _ _ _ hsame _ h k id i hid hi => by
      rw [hsame id (Array.mem_of_getElem? hid)]
      exact h k id i hid hi) hplace hb hkind
  obtain ⟨j, hj, hreworked⟩ := hall k id i hk hi
  have hexit : f.isExit = true → k + 1 = blk.body.size := by
    intro hx
    have := hc.branchLast hb hkind k f (by omega) (by omega)
      ⟨id, i, ⟨Position.get_natCast.mpr hk, hi⟩, hf⟩ ((isBranch_iff f).mpr (Or.inr (Or.inr hx)))
    omega
  obtain ⟨f', hf', htracks⟩ := hreworked.tracks hf hin hout hexit
  exact ⟨i, j, f, f', hi, hj, hf, hf', hin, hout, htracks⟩

/-- A constant that is put into another register, and a store to it. -/
def movedAddress : Compilation :=
  start {} { printTable := false }
    #[0xb701000001000000, 0xbf12000000000000, 0xb701000005000000, 0x6331000000000000,
      0x0500000000000000, 0x9500000000000000]
    #["r1 = 1", "r2 = r1", "r1 = 5", "*(u32 *)(r1 + 0) = r3", "goto +0", "exit"]

/-- The store is on record to read r3 and r2, but its word reads r2 and r1. -/
theorem slot_tracks_movedAddress :
    ∃ c e j f', Runs Optimize.prepare movedAddress () c ∧ Runs placeAll c () e ∧
      Table.entry e.table 1 1 = some (some 3) ∧ e.store[3]? = some j ∧
      Fields.decode j.word = .ok f' ∧ j.inputs.map Operand.register = [3, 2] ∧
      j.OutputInStep f' ∧ ¬ j.InputsInStep f' := by
  obtain ⟨c, e, hc, he, hslot, hfound⟩ := exists_chain (m := Optimize.prepare)
    (n := placeAll) (s := movedAddress)
    (P := fun _ e => Table.entry e.table 1 1 = some (some 3) ∧ e.store[3]?.bind (fun j =>
      (Fields.decode j.word).toOption.map fun f => (j.inputs.map Operand.register,
        decide (f.opcode ∈ Opcode.readsBoth), f.dst, (Mnemonic.sides j.text).isOk)) =
          some ([3, 2], true, 1, true))
    (by decide +kernel) (by decide +kernel) (by decide +kernel)
  obtain ⟨i, j, f, f', hi, hj, hf, hf', _, _, htracks⟩ := slot_tracks (by decide +kernel) hc he hslot
  simp only [hj, hf', Option.bind_some, Except.toOption, Option.map_some, Option.some.injEq,
    Prod.mk.injEq, decide_eq_true_eq] at hfound
  obtain ⟨hregs, hboth, hdst, hsides⟩ := hfound
  have hop : f'.opcode = f.opcode := by rw [htracks.fields]
  refine ⟨c, e, j, f', hc, he, hslot, hj, hf', hregs, htracks.assigned ?_, ?_⟩
  · cases hs : Mnemonic.sides j.text with
    | error e =>
      rw [hs] at hsides
      cases hsides
    | ok sides => exact ⟨sides, rfl⟩
  · intro hin
    obtain ⟨renamed, _, _, _, hiff⟩ := htracks.inputs
    obtain ⟨x, hx, _⟩ := (hiff.mp hin).2 (hop ▸ hboth)
    rw [hregs, hdst] at hx
    simp at hx

end Schedule
end BpfLanes
