import BpfLanes.Proofs.NextUses

/-! # When the next use is right

The next use of a value is the first instruction after it that reads its register, if
the register is not overwritten before, or else what a later block says, if the
register is not overwritten at all. One case goes wrong: if a single later instruction
overwrites a register, none reads it, and a later block needs it, then that block is
noted as the next use of the value that was overwritten.
-/

namespace BpfLanes

open Compilation

variable {o : Operand} {position : Option Int}

@[simp] theorem Instr.bare_reads (i : Instr) (r : Int) : i.bare.reads r = i.reads r := by
  simp [Instr.reads, Instr.bare, Operand.bare, Function.comp_def]

@[simp] theorem Instr.bare_writes (i : Instr) (r : Int) : i.bare.writes r = i.writes r := by
  simp [Instr.writes, Instr.bare, Operand.bare, Option.any_map]

@[simp] theorem Instr.bare_position (i : Instr) : i.bare.position = i.position := rfl

namespace Liveness

/-- The next use of the value that register `r` holds before the instructions `later`:
    the first one that reads it if none before that one writes it, else what is needed
    after the block if none of them writes it. -/
def nextUse (liveOut : RegMap) (later : List Instr) (r : Int) : Option Int :=
  if (later.takeWhile fun i => !i.reads r).any fun i => i.writes r then none
  else match later.find? fun i => i.reads r with
    | some i => i.position
    | none => liveOut.get? r

/-- None of the instructions `later` reads register `r` and a single one writes it, but a
    block after them needs it. -/
def Shadowed (liveOut : RegMap) (later : List Instr) (r : Int) : Prop :=
  (∀ i ∈ later, i.reads r = false) ∧ later.countP (fun i => i.writes r) = 1 ∧
    (liveOut.get? r).isSome = true

instance (liveOut : RegMap) (later : List Instr) (r : Int) :
    Decidable (Shadowed liveOut later r) :=
  inferInstanceAs (Decidable (_ ∧ _))

/-- The next use that the walk back has noted for a register. -/
def noted (liveOut : RegMap) (symbols : Symbols) (r : Int) : Option Int :=
  match symbols.lookup r with
  | some s => s.nextUse
  | none => liveOut.get? r

variable {liveOut : RegMap} {symbols : Symbols} {later : List Instr} {i : Instr} {r : Int}

theorem nextUse_cons : nextUse liveOut (i :: later) r =
    if i.reads r then i.position else if i.writes r then none else nextUse liveOut later r := by
  unfold nextUse
  cases hr : i.reads r <;> cases hw : i.writes r <;> simp [hr, hw]

theorem nextUse_map_bare : nextUse liveOut (later.map Instr.bare) r = nextUse liveOut later r := by
  induction later with
  | nil => rfl
  | cons i later ih => simp [nextUse_cons, ih]

theorem shadowed_map_bare :
    Shadowed liveOut (later.map Instr.bare) r ↔ Shadowed liveOut later r := by
  simp [Shadowed, Function.comp_def]

theorem Shadowed.nextUse_eq_none (h : Shadowed liveOut later r) :
    nextUse liveOut later r = none := by
  induction later with
  | nil => simp [Shadowed] at h
  | cons i later ih =>
    have hr : i.reads r = false := h.1 i List.mem_cons_self
    rw [nextUse_cons, hr]
    cases hw : i.writes r with
    | true => rfl
    | false => exact ih (by simpa [Shadowed, hr, hw] using h)

theorem noted_markBody :
    (Shadowed liveOut later r → noted liveOut (markBody liveOut later).1 r = liveOut.get? r) ∧
      (¬ Shadowed liveOut later r →
        noted liveOut (markBody liveOut later).1 r = nextUse liveOut later r) := by
  induction later with
  | nil => exact ⟨fun _ => rfl, fun _ => rfl⟩
  | cons i later ih =>
    rw [markBody_cons, nextUse_cons]
    unfold noted at ih ⊢
    cases hr : i.reads r with
    | true => simp [lookup_markInstr_read hr, Shadowed, hr]
    | false =>
      cases hw : i.writes r with
      | false => simpa [lookup_markInstr_other hr hw, Shadowed, hr, hw] using ih
      | true =>
        -- what is noted depends on whether anything after the instruction touches `r`
        simp only [lookup_markInstr_written hr hw]
        cases hlook : (markBody liveOut later).1.lookup r with
        | none =>
          have hrest := lookup_markBody_eq_none.mp hlook
          have hcount : later.countP (fun i => i.writes r) = 0 :=
            List.countP_eq_zero.mpr fun i hi => by simp [hrest i hi]
          cases hlive : liveOut.get? r with
          | none => simp [Shadowed, hlive]
          | some p => simpa [Shadowed, hr, hw, hcount, hlive] using fun i hi => (hrest i hi).1
        | some known =>
          refine ⟨?_, by simp⟩
          rintro ⟨hreads, hcount, _⟩
          rw [List.countP_cons, if_pos hw, Nat.add_eq_right, List.countP_eq_zero] at hcount
          have huntouched : (markBody liveOut later).1.lookup r = none :=
            lookup_markBody_eq_none.mpr fun i hi =>
              ⟨hreads i (List.mem_cons_of_mem _ hi), by simpa using hcount i hi⟩
          rw [hlook] at huntouched
          cases huntouched

/-! ## Operands -/

theorem markOutput_nextUse (ho : o.nextUse = none) :
    (markOutput liveOut symbols o).2.nextUse = noted liveOut symbols o.register := by
  unfold markOutput noted
  cases symbols.lookup o.register with
  | none => cases hlive : liveOut.get? o.register <;> simp [ho]
  | some s => rfl

theorem markInput_nextUse (ho : o.nextUse = none) :
    (markInput liveOut position symbols o).2.nextUse = noted liveOut symbols o.register := by
  unfold markInput noted
  cases symbols.lookup o.register with
  | none => cases hlive : liveOut.get? o.register <;> simp [ho]
  | some s => rfl

theorem markInputs_nextUse {os before after : List Operand} (hplain : ∀ x ∈ os, x.nextUse = none)
    (h : (markInputs liveOut position symbols os).2 = before ++ o :: after)
    (hfirst : ∀ x ∈ before, x.register ≠ o.register) :
    o.nextUse = noted liveOut symbols o.register := by
  induction os generalizing symbols before with
  | nil => simp [markInputs] at h
  | cons x os ih =>
    rw [markInputs_cons] at h
    cases before with
    | nil =>
      obtain ⟨rfl, _⟩ := List.cons.inj h
      rw [markInput_register, markInput_nextUse (hplain x List.mem_cons_self)]
    | cons y before =>
      obtain ⟨rfl, hrest⟩ := List.cons.inj h
      have hne := hfirst _ List.mem_cons_self
      rw [markInput_register] at hne
      rw [ih (fun x hx => hplain x (List.mem_cons_of_mem _ hx)) hrest
        fun x hx => hfirst x (List.mem_cons_of_mem _ hx)]
      unfold noted
      rw [markInput_fst, Symbols.lookup_put, if_neg (Ne.symm hne)]

/-- An operand of an instruction: what it writes, or an input whose register it does not
    write and whose value no input before it reads. -/
inductive Tracked (a : Instr) (o : Operand) : Prop where
  | output (ho : a.output = some o)
  | input (before after : List Operand) (ho : a.inputs = before ++ o :: after)
    (hfirst : ∀ x ∈ before, x.register ≠ o.register) (hw : a.writes o.register = false)

end Liveness

open Liveness

/-- The walk over the blocks tells each operand its next use, unless its value is
    shadowed. -/
theorem nextUse_exact_iff_not_shadowed {c d : Compilation} (hc : Unwalked c)
    (hrun : Runs Liveness.insideBlocks c () d) {b k : Nat} {blk : Block} {a : Instr} {o : Operand}
    (hb : d.blocks[b]? = some blk) (hkind : blk.kind = .basic)
    (ha : (d.bodyOf blk)[k]? = some a) (ho : Tracked a o) :
    (∃ symbols, c.blocks[b]? = some { blk with symbols }) ∧
    (o.nextUse = nextUse blk.liveOut ((d.bodyOf blk).drop (k + 1)) o.register ↔
      ¬ Shadowed blk.liveOut ((d.bodyOf blk).drop (k + 1)) o.register) ∧
    (Shadowed blk.liveOut ((d.bodyOf blk).drop (k + 1)) o.register →
      o.nextUse = blk.liveOut.get? o.register) := by
  obtain ⟨⟨symbols, hold⟩, hmarked⟩ := runs_insideBlocks hc hrun hb hkind
  have hplain : ∀ a ∈ c.bodyOf blk, a.Unmarked := by
    have hall := hc.plain b _ hold hkind
    exact hall
  have hdrop : ((d.bodyOf blk).drop (k + 1)).map Instr.bare
      = ((c.bodyOf blk).drop (k + 1)).map Instr.bare := by
    rw [List.map_drop, List.map_drop, NextUses.bare hmarked]
  have hnoted : o.nextUse = noted blk.liveOut
      (markBody blk.liveOut ((c.bodyOf blk).drop (k + 1))).1 o.register := by
    cases ho with
    | output ho =>
      obtain ⟨a₀, o₀, ha₀, ho₀, hreg, hmark⟩ := NextUses.marked_output hmarked ha ho
      have hfresh := (hplain a₀ (List.mem_of_getElem? ha₀)).2
      rw [ho₀] at hfresh
      rw [← hmark, markOutput_nextUse (congrArg Operand.nextUse (Option.some.inj hfresh)).symm,
        hmark, hreg]
    | input before after ho hfirst hw =>
      obtain ⟨a₀, ha₀, hbare, hsettled⟩ := NextUses.marked hmarked ha
      have hin := congrArg Instr.inputs hsettled
      rw [markInstr_eq] at hin
      have hfresh : ∀ x ∈ a₀.inputs, x.nextUse = none := by
        intro x hx
        rw [← (hplain a₀ (List.mem_of_getElem? ha₀)).1] at hx
        obtain ⟨y, _, rfl⟩ := List.mem_map.mp hx
        rfl
      rw [markInputs_nextUse hfresh (hin.symm.trans ho) hfirst]
      unfold noted
      rw [lookup_afterOutput ((Instr.writes_of_bare hbare _).trans hw)]
  have hshadowed : Shadowed blk.liveOut ((d.bodyOf blk).drop (k + 1)) o.register ↔
      Shadowed blk.liveOut ((c.bodyOf blk).drop (k + 1)) o.register := by
    rw [← shadowed_map_bare, hdrop, shadowed_map_bare]
  rw [← nextUse_map_bare, hdrop, nextUse_map_bare, hshadowed, hnoted]
  refine ⟨⟨symbols, hold⟩, ⟨fun heq hs => ?_, noted_markBody.2⟩, noted_markBody.1⟩
  -- a shadowed value has no next use, but is marked with one
  rw [noted_markBody.1 hs, hs.nextUse_eq_none] at heq
  have hlive := hs.2.2
  rw [heq] at hlive
  cases hlive

/-- Two writes of r1 in a row, before a block that reads it. -/
def writtenTwice : Array Word :=
  #[0xb701000001000000, 0xb701000002000000, 0x0500000000000000, 0xbf10000000000000,
    0x9500000000000000]

theorem nextUse_exact_iff_not_shadowed_writtenTwice :
    ∃ c d blk a o, Unwalked c ∧ Runs Liveness.insideBlocks c () d ∧ d.blocks[1]? = some blk ∧
      (d.bodyOf blk)[0]? = some a ∧ a.output = some o ∧ o = ⟨1, true, some 3⟩ ∧
      o.nextUse ≠ nextUse blk.liveOut ((d.bodyOf blk).drop 1) o.register := by
  obtain ⟨t, d, hcut, hlive, hfound⟩ := exists_chain (m := Flow.analyse) (n := Liveness.analyse)
    (s := start {} {} writtenTwice (writtenTwice.map fun _ => ""))
    (P := fun _ d => d.blocks[1]?.bind (fun blk => (d.bodyOf blk)[0]?.bind fun a =>
      a.output.map fun o => (blk.kind, o,
        decide (Shadowed blk.liveOut ((d.bodyOf blk).drop 1) o.register))) =
          some (.basic, ⟨1, true, some 3⟩, true))
    (by decide +kernel) (by decide +kernel) (by decide +kernel)
  obtain ⟨_, c, hacross, hinside⟩ := runs_bind.mp hlive
  have hunwalked : Unwalked c :=
    (Flow.runs_analyse (Optimize.uncut_start (by decide +kernel)) hcut).1.unwalked
      (keeps_acrossBlocks.runs hacross (Relabelled.refl t))
      (keeps_acrossBlocks_store.runs hacross rfl)
  obtain ⟨blk, hblk, hfound⟩ := Option.bind_eq_some_iff.mp hfound
  obtain ⟨a, ha, hfound⟩ := Option.bind_eq_some_iff.mp hfound
  obtain ⟨o, ho, hfound⟩ := Option.map_eq_some_iff.mp hfound
  simp only [Prod.mk.injEq, decide_eq_true_eq] at hfound
  obtain ⟨hkind, hop, hshadowed⟩ := hfound
  obtain ⟨-, hiff, -⟩ :=
    nextUse_exact_iff_not_shadowed hunwalked hinside hblk hkind ha (.output ho)
  exact ⟨c, d, blk, a, o, hunwalked, hinside, hblk, ha, ho, hop, fun h => hiff.mp h hshadowed⟩

end BpfLanes
