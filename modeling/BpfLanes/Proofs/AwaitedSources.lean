import BpfLanes.Proofs.PlacementRows

/-! # What a search waits for

What an instruction waits for can always be looked up: the instructions of its block
that it reads from have a place, and the blocks before are there to be searched for
a value from outside. Where the result comes from is known as well: from such an
instruction, from one of an earlier block that wrote a register which is read here, or
from the last instruction of the program.
-/

namespace BpfLanes

open Compilation

variable {registers : List Int} {b : Nat}

section
variable {c : Compilation}

/-! ## Looking back through the blocks -/

theorem definitionIn_ok (blk : Block) (registers : List Int) :
    ∃ i, Runs (LastUse.definitionIn blk registers) c i c := by
  induction registers with
  | nil => exact ⟨none, rfl⟩
  | cons r rest ih =>
    unfold LastUse.definitionIn
    split
    · have hwriter : Runs (LastUse.writerIn blk r) c
          ((c.bodyOf blk).reverse.find? fun i => i.writes r) c := rfl
      cases hfound : (c.bodyOf blk).reverse.find? fun i => i.writes r with
      | none =>
        rw [hfound] at hwriter
        obtain ⟨i, hi⟩ := ih
        exact ⟨i, runs_bind.mpr ⟨none, c, hwriter, hi⟩⟩
      | some i =>
        rw [hfound] at hwriter
        exact ⟨some i, runs_bind.mpr ⟨some i, c, hwriter, rfl⟩⟩
    · exact ih

theorem definitionBefore_ok (hb : ∀ b', 0 < b' → b' ≤ b → b' < c.blocks.size) :
    ∃ source, Runs (LastUse.definitionBefore registers b) c source c := by
  induction b with
  | zero => exact ⟨none, rfl⟩
  | succ b ih =>
    have hlt := hb (b + 1) (by omega) (by omega)
    have hblk : Position.get c.blocks ((b : Int) + 1) = .ok c.blocks[b + 1] :=
      Position.get_natCast.mpr (Array.getElem?_eq_getElem hlt)
    obtain ⟨i, hi⟩ := definitionIn_ok (c := c) c.blocks[b + 1] registers
    unfold LastUse.definitionBefore
    simp only [runs_block_bind]
    cases i with
    | none =>
      obtain ⟨source, hsource⟩ := ih fun b' hpos hle => hb b' hpos (by omega)
      exact ⟨source, _, hblk, runs_bind.mpr ⟨none, c, hi, hsource⟩⟩
    | some i => exact ⟨i.position, _, hblk, runs_bind.mpr ⟨some i, c, hi, rfl⟩⟩

theorem definition_ok (hb : b ≤ c.blocks.size) :
    ∃ source, Runs (LastUse.definition registers b) c source c := by
  unfold LastUse.definition
  split
  · exact ⟨none, rfl⟩
  · exact definitionBefore_ok fun b' hpos hle => by omega

end

namespace Placement

/-! ## All that is waited for -/

/-- Where the result that an instruction waits for comes from. -/
inductive Source (c : Compilation) (b : Int) (blk : Block) (n : Int) (above : List Int)
    (source : Option Int) : Prop where
  /-- from the last instruction of the program -/
  | last (h : source = some (-1))
  /-- from an instruction of an earlier block that wrote a register which is read -/
  | before {id : Nat} {i : Instr} (hp : -1 ∈ above) (hi : Schedule.InstrAt c blk n id i)
    (h : Runs (LastUse.definition (i.inputs.map Operand.register) b) c source c)
  | inside {p : Int} {pl : Place} (hp : p ∈ above) (hne : p ≠ -1)
    (hplace : PlaceAt c blk p source pl)

section
variable {c d : Compilation} {b lastRow n : Int} {blk : Block} {above : List Int} {w : Wait}

theorem awaitAll_source (h : Runs (awaitAll b blk lastRow n above) c w d) :
    Source c b blk n above w.source := by
  have hall := runs_foldlM_induct
    (fun _ w d => d = c ∧ Source c b blk n above w.source) h ⟨rfl, .last rfl⟩ ?_
  · exact hall.2
  intro done p rest w d w' e hsplit hw hr
  obtain ⟨rfl, hw⟩ := hw
  rw [runs_instrAt_bind] at hr
  obtain ⟨id, i, hid, hi, hr⟩ := hr
  obtain ⟨rfl, hawaits, hentry⟩ := runs_await hr
  have hp : p ∈ above := by
    rw [hsplit]
    simp
  refine ⟨rfl, ?_⟩
  -- the source is replaced by whatever was waited for longer, or as long
  cases hawaits with
  | entry heq _ => exact .before (heq ▸ hp) ⟨hid, hi⟩ (hentry heq)
  | later hne hplace _ => exact .inside hp hne hplace
  | level hne hplace _ => exact .inside hp hne hplace
  | earlier _ _ _ => exact hw

theorem awaitAll_late
    (hlate : ∀ p ∈ above, p ≠ -1 → ∀ q pl, PlaceAt c blk p q pl → pl.time < lastRow)
    (h : Runs (awaitAll b blk lastRow n above) c w d) : w.row = lastRow := by
  have hall := runs_foldlM_induct (fun _ w d => d = c ∧ w.row = lastRow) h ⟨rfl, rfl⟩ ?_
  · exact hall.2
  intro done p rest w d w' e hsplit hw hr
  obtain ⟨rfl, hw⟩ := hw
  rw [runs_instrAt_bind] at hr
  obtain ⟨_, _, _, _, hr⟩ := hr
  obtain ⟨rfl, hawaits, _⟩ := runs_await hr
  refine ⟨rfl, ?_⟩
  have hp : p ∈ above := by
    rw [hsplit]
    simp
  cases hawaits with
  | entry _ _ => rfl
  | later hne hplace hrow =>
    have := hlate p hp hne _ _ hplace
    omega
  | level hne hplace hrow =>
    have := hlate p hp hne _ _ hplace
    omega
  | earlier _ _ _ => exact hw

theorem await_ok {p : Int} (i : Instr) (lastRow : Int) (w : Wait)
    (hdef : ∀ registers, ∃ source, Runs (LastUse.definition registers b) c source c)
    (hp : p ≠ -1 → ∃ q pl, PlaceAt c blk p q pl) :
    ∃ w', Runs (await b blk i lastRow w p) c w' c := by
  unfold await
  by_cases heq : p = -1
  · obtain ⟨source, hsource⟩ := hdef (i.inputs.map Operand.register)
    rw [if_pos (by simpa using heq)]
    exact ⟨_, runs_bind.mpr ⟨source, c, hsource, rfl⟩⟩
  · obtain ⟨q, pl, id, j, hid, hj, rfl, k, hk, hpl⟩ := hp heq
    rw [if_neg (by simpa using heq)]
    simp only [runs_instrAt_bind, runs_placeOf_bind]
    by_cases hle : w.row ≤ pl.time
    · exact ⟨_, id, j, hid, hj, k, pl, hk, hpl, by rw [if_pos hle]; rfl⟩
    · exact ⟨w, id, j, hid, hj, k, pl, hk, hpl, by rw [if_neg hle]; rfl⟩

theorem awaitAll_ok {id : Nat} {i : Instr} (hi : Schedule.InstrAt c blk n id i)
    (hdef : ∀ registers, ∃ source, Runs (LastUse.definition registers b) c source c)
    (hplaced : ∀ p ∈ above, p ≠ -1 → ∃ q pl, PlaceAt c blk p q pl) :
    ∃ w, Runs (awaitAll b blk lastRow n above) c w c := by
  have hloop := foldlM_runs
    (f := fun w p => do await b blk (← instrAt blk n) lastRow w p)
    (fun rest (_ : Wait) d => (∀ p ∈ rest, p ∈ above) ∧ d = c)
    (l := above) (s := c) (b := { row := lastRow, source := some (-1) })
    ⟨fun _ hp => hp, rfl⟩ ?_
  · obtain ⟨w, d, hrun, _, hd⟩ := hloop
    rw [hd] at hrun
    exact ⟨w, hrun⟩
  · rintro p rest w d ⟨hrest, rfl⟩
    have hp := hplaced p (hrest p (List.mem_cons_self ..))
    obtain ⟨w', hw'⟩ := await_ok i lastRow w hdef hp
    refine ⟨w', d, ?_, fun p' hp' => hrest p' (List.mem_cons_of_mem _ hp'), rfl⟩
    rw [runs_instrAt_bind]
    exact ⟨id, i, hi.1, hi.2, hw'⟩

end

/-! ## The slot that is looked for -/

theorem find_eq {c : Compilation} {blk : Block} {g : Digraph} {lastRow n : Int} {w : Wait}
    {f : Fields} (hb : c.blocks[b]? = some blk) (hn : n ∈ g.nodes)
    (hw : Runs (awaitAll b blk lastRow n (g.before n)) c w c) (hf : Schedule.FieldsAt c blk n f)
    (maxRow : Int) : (find b g lastRow maxRow n).run c =
      (slotFrom b ((if f.isBranch then max w.row (maxRow - 1) else w.row) + 1) w.source
        f.isBranch).run c := by
  obtain ⟨id, i, hi, hdecode⟩ := hf
  have hblk : Runs (block b) c blk c := runs_block.mpr ⟨Position.get_natCast.mpr hb, rfl⟩
  have hbefore : Runs (liftM (g.predecessors n) : CompileM (List Int)) c (g.before n) c := by
    rw [runs_lift]
    unfold Digraph.predecessors
    rw [if_pos (by simpa using hn)]
    exact ⟨rfl, rfl⟩
  have hinstr : Runs (instrAt blk n) c i c := runs_instrAt.mpr ⟨id, hi.1, hi.2, rfl⟩
  have hfields : Runs (fieldsOf i) c f c := runs_fieldsOf.mpr ⟨hdecode, rfl⟩
  unfold find
  rw [hblk.run_bind, hbefore.run_bind, hw.run_bind, hinstr.run_bind, hfields.run_bind]

end Placement
end BpfLanes
