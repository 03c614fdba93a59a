import BpfLanes.Proofs.DependenceGraph
import BpfLanes.Proofs.RenamingFrame

/-! # Placing one instruction

One step of the schedule finds a slot, avoids an overwrite if it has to, and puts
the instruction there. What the slot is known to satisfy when it is found still
holds when the instruction is put into it.
-/

namespace BpfLanes

open Compilation Placement

variable {blk : Block} {g : Digraph} {i : Instr} {above : List Int} {r : LiveRange} {k : Nat}
  {l : Option Int} {s : Slot}

variable {c e d : Compilation} {p b lastRow register : Int}

/-! ## Slots after renaming -/

theorem Renamed.placeAt_iff (h : Renamed blk c e) {q : Option Int} {pl : Place} :
    PlaceAt e blk p q pl ↔ PlaceAt c blk p q pl := by
  constructor
  · rintro ⟨id, i, hid, hi, rfl, k, hk, hpl⟩
    obtain ⟨i₀, hi₀, hop⟩ := h.store.origin hi
    rw [h.schedule] at hpl
    exact ⟨id, i₀, hid, hi₀, hop.position.symm, k, hk, hpl⟩
  · rintro ⟨id, i, hid, hi, rfl, k, hk, hpl⟩
    obtain ⟨j, hj, hop⟩ := h.store.operation id i hi
    rw [← h.schedule] at hpl
    exact ⟨id, j, hid, hj, hop.position, k, hk, hpl⟩

theorem Renamed.found_iff (he : Renamed blk c e) :
    s.Found e b blk above lastRow ↔ s.Found c b blk above lastRow := by
  constructor
  · intro h
    refine ⟨he.table ▸ h.free, h.after, ?_⟩
    intro p hp hne q pl hplace
    exact h.waits p hp hne q pl (he.placeAt_iff.mpr hplace)
  · intro h
    refine ⟨he.table.symm ▸ h.free, h.after, ?_⟩
    intro p hp hne q pl hplace
    exact h.waits p hp hne q pl (he.placeAt_iff.mp hplace)

theorem Placement.Slot.Found.mono {lastRow' : Int} (h : s.Found c b blk above lastRow')
    (hle : lastRow ≤ lastRow') : s.Found c b blk above lastRow :=
  ⟨h.free, by have := h.after; omega, h.waits⟩

/-! ## Walks that succeed -/

theorem runs_indexIn {n : Nat} : Runs (indexIn blk p) c n d ↔
    (c.bodyOf blk).findIdx? (fun i => i.position == some p) = some n ∧ d = c := by
  unfold indexIn
  rw [runs_get_bind]
  split
  · next n' hn => rw [runs_pure, hn, Option.some.injEq, eq_comm]
  · next hn => simp [not_runs_fail, hn]

/-- The records lead from a position to an instruction. -/
def Located (c : Compilation) (p : Int) (i : Instr) : Prop :=
  ∃ pl b blk n, Position.get c.schedule p = .ok pl ∧ pl.block = some b ∧
    Position.get c.blocks b = .ok blk ∧
    (c.bodyOf blk).findIdx? (fun i => i.position == some p) = some n ∧
    ∃ id, Position.get blk.body (n : Int) = .ok id ∧ c.store[id]? = some i

theorem runs_instrOf : Runs (instrOf p) c i d ↔ Located c p i ∧ d = c := by
  unfold instrOf
  rw [runs_placeOf_bind]
  constructor
  · rintro ⟨_, pl, hp, hpl, h⟩
    cases hp
    obtain ⟨b, hb, h⟩ := runs_lift_bind.mp h
    obtain ⟨blk, hblk, h⟩ := runs_block_bind.mp h
    obtain ⟨n, c', hn, hi⟩ := runs_bind.mp h
    obtain ⟨hn, rfl⟩ := runs_indexIn.mp hn
    obtain ⟨id, hid, hi, rfl⟩ := runs_instrAt.mp hi
    exact ⟨⟨pl, b, blk, n, hpl, need_eq_ok_iff.mp hb, hblk, hn, id, hid, hi⟩, rfl⟩
  · rintro ⟨⟨pl, b, blk, n, hpl, hb, hblk, hn, id, hid, hi⟩, rfl⟩
    refine ⟨p, pl, rfl, hpl, runs_lift_bind.mpr ⟨b, need_eq_ok_iff.mpr hb, ?_⟩⟩
    refine runs_block_bind.mpr ⟨blk, hblk, runs_bind.mpr ⟨n, d, runs_indexIn.mpr ⟨hn, rfl⟩, ?_⟩⟩
    exact runs_instrAt.mpr ⟨id, hid, hi, rfl⟩

theorem runs_walk_same {fuel : Nat} (h : Runs (LastUse.walk register fuel p) c l d) : d = c := by
  induction fuel generalizing p with
  | zero => exact absurd h runs_throw
  | succ fuel ih =>
    obtain ⟨i, c', hi, hrest⟩ := runs_bind.mp h
    obtain ⟨_, rfl⟩ := runs_instrOf.mp hi
    rw [runs_lift_bind] at hrest
    obtain ⟨hop, _, hrest⟩ := hrest
    cases hop with
    | stop q => exact (runs_pure.mp hrest).2
    | next q => exact ih hrest

theorem runs_lastUse_same {next : Option Int} (h : Runs (LastUse.find next register) c l d) :
    d = c := by
  cases next with
  | none => exact (runs_pure.mp h).2
  | some p =>
    exact runs_walk_same h

namespace Schedule

variable {r' : Reach}

/-! ## The value that is written -/

/-- A value that instruction `i` of a block must not overwrite while it is needed: one that
    the block writes and no longer needs behind it, that another instruction uses last, and
    that is not in the register of the program's result. -/
structure Shielded (x : Compilation) (blk : Block) (i : Instr) (v : LiveRange) : Prop where
  own : blk.start ≤ v.definedBy
  last : ∃ l, v.lastUse = some l ∧ l ≤ blk.stop ∧ i.position ≠ some l
  plain : x.bounds.actionRegister ≠ some v.register

variable {old : Int}
variable {b : Nat} {maxRow : Int} {n : Int} {s' : Slot}

theorem runs_placeOutput (h : Runs (placeOutput b blk g maxRow n s) c s' d) :
    ∃ id i, InstrAt c blk n id i ∧
      ((s' = s ∧ d = c ∧ ∀ o, i.output = some o → o.nextUse.all (fun p => p == 0) = true) ∨
      ∃ o last pl e, i.output = some o ∧ o.nextUse.all (fun p => p == 0) = false ∧
        Runs (LastUse.find o.nextUse o.register) c last c ∧ Runs (placeOf last) c pl c ∧
        Runs (clearSlot b blk g maxRow n s i o.register) c s' e ∧
        Runs (recordOutput blk n s'.row last (if pl.lane.isSome then some pl.time else none))
          e () d) := by
  unfold placeOutput at h
  rw [runs_instrAt_bind] at h
  obtain ⟨id, i, hid, hi, h⟩ := h
  refine ⟨id, i, ⟨hid, hi⟩, ?_⟩
  cases ho : i.output with
  | none =>
    rw [ho] at h
    obtain ⟨rfl, rfl⟩ := runs_pure.mp h
    exact .inl ⟨rfl, rfl, by simp⟩
  | some o =>
    rw [ho] at h
    dsimp only at h
    split at h
    · next hnone =>
      obtain ⟨rfl, rfl⟩ := runs_pure.mp h
      refine .inl ⟨rfl, rfl, ?_⟩
      intro o' ho'
      cases ho'
      exact hnone
    · next hsome =>
      obtain ⟨last, c', hlast, hplace⟩ := runs_bind.mp h
      obtain rfl := runs_lastUse_same hlast
      rw [runs_placeOf_bind] at hplace
      obtain ⟨p, pl, hp, hpl, hslot⟩ := hplace
      obtain ⟨s₁, e, hclear, hslot⟩ := runs_bind.mp hslot
      obtain ⟨_, e', hrecord, hret⟩ := runs_bind.mp hslot
      obtain ⟨rfl, rfl⟩ := runs_pure.mp hret
      exact .inr ⟨o, last, pl, e, rfl, by simpa using hsome, hlast,
        runs_placeOf.mpr ⟨p, hp, hpl, rfl⟩, hclear, hrecord⟩

theorem runs_recordOutput {row : Int} {last endRow : Option Int} {u : Unit}
    (h : Runs (recordOutput blk n row last endRow) c u d) :
    ∃ id i o p, InstrAt c blk n id i ∧ i.output = some o ∧ i.position = some p ∧
      d = { c with ranges := c.ranges.define {
        register := o.register, definedBy := p, lastUse := last, row, endRow } } := by
  unfold recordOutput at h
  rw [runs_instrAt_bind] at h
  obtain ⟨id, i, hid, hi, h⟩ := h
  simp only [runs_lift_bind, need_eq_ok_iff, runs_modify] at h
  obtain ⟨o, ho, p, hp, hd⟩ := h
  exact ⟨id, i, o, p, ⟨hid, hi⟩, ho, hp, hd⟩

theorem runs_mustAvoid {avoided : Bool} (h : Runs (mustAvoid blk i r) c avoided d) :
    d = c ∧ (avoided = true ↔ Shielded c blk i r) := by
  unfold mustAvoid at h
  rw [runs_get_bind] at h
  dsimp only at h
  split at h
  · next hfree =>
    obtain ⟨rfl, rfl⟩ := runs_pure.mp h
    simp only [Bool.or_eq_true, beq_iff_eq] at hfree
    refine ⟨rfl, nofun, fun hr => ?_⟩
    obtain ⟨l, hl, -, hne⟩ := hr.last
    rcases hfree with hown | hresult
    · exact absurd (hown.trans hl) hne
    · exact absurd hresult.symm hr.plain
  · next hfree =>
    simp only [Bool.or_eq_true, beq_iff_eq, not_or] at hfree
    split at h
    · next hbefore =>
      obtain ⟨rfl, rfl⟩ := runs_pure.mp h
      exact ⟨rfl, nofun, fun hr => absurd hr.own (by omega)⟩
    · next hown =>
      rw [runs_lift_bind] at h
      obtain ⟨l, hl, h⟩ := h
      rw [need_eq_ok_iff] at hl
      obtain ⟨rfl, rfl⟩ := runs_pure.mp h
      rw [decide_eq_true_eq]
      refine ⟨rfl, fun hle => ⟨by omega, ⟨l, hl, hle, hl ▸ hfree.1⟩, Ne.symm hfree.2⟩, fun hr => ?_⟩
      obtain ⟨l', hl', hle, -⟩ := hr.last
      obtain rfl := Option.mem_unique hl hl'
      exact hle

theorem runs_avoid_parts (h : Runs (avoid b blk g maxRow n s old r) c s' d) :
    (s' = s ∧ Runs (renameValue b blk g n s.row old (c.ranges.taken s.row)) c () d) ∨
      ∃ fault e printed row,
        Fails (renameValue b blk g n s.row old (c.ranges.taken s.row)) c fault e ∧
        r.endRow = some row ∧ Runs (find b g row maxRow n) { e with printed } s' d := by
  unfold avoid at h
  rw [runs_get_bind] at h
  rcases runs_tryCatch.mp h with h | ⟨fault, e, hfail, h⟩
  · obtain ⟨_, e, hrename, hret⟩ := runs_bind.mp h
    obtain ⟨rfl, rfl⟩ := runs_pure.mp hret
    exact .inl ⟨rfl, hrename⟩
  · rcases fails_bind.mp hfail with hfail | ⟨_, _, _, hret⟩
    · rw [runs_instrAt_bind] at h
      obtain ⟨id, i, _, _, h⟩ := h
      rw [runs_say_bind, runs_lift_bind] at h
      obtain ⟨_, _, h⟩ := h
      rw [runs_lift_bind] at h
      obtain ⟨row, hrow, h⟩ := h
      exact .inr ⟨fault, e, _, row, hfail, need_eq_ok_iff.mp hrow, h⟩
    · cases hret

/-- A slot is kept unless a value is in the way. -/
theorem runs_clearSlot_cases (h : Runs (clearSlot b blk g maxRow n s i register) c s' d) :
    (s' = s ∧ d = c ∧ ∀ r, c.ranges.conflict? register s.row = some r → ¬ Shielded c blk i r) ∨
    ∃ r, c.ranges.conflict? register s.row = some r ∧ Shielded c blk i r ∧
      Runs (avoid b blk g maxRow n s register r) c s' d := by
  unfold clearSlot at h
  rw [runs_get_bind] at h
  split at h
  · next hnone =>
    obtain ⟨rfl, rfl⟩ := runs_pure.mp h
    exact .inl ⟨rfl, rfl, fun r hr => by rw [hnone] at hr; cases hr⟩
  · next r hr =>
    obtain ⟨avoided, c', hmust, hslot⟩ := runs_bind.mp h
    obtain ⟨rfl, hiff⟩ := runs_mustAvoid hmust
    split at hslot
    · next havoid => exact .inr ⟨r, hr, hiff.mp havoid, hslot⟩
    · next hkeep =>
      obtain ⟨rfl, rfl⟩ := runs_pure.mp hslot
      refine .inl ⟨rfl, rfl, fun r' hr' hshield => hkeep ?_⟩
      obtain rfl := Option.mem_unique hr hr'
      exact hiff.mpr hshield

/-! ## Values in the way -/

/-- The value `v` is in the way of instruction `n` of a block, which is `i` and comes next
    in `x`: it is needed behind the slot `s` that is found for `n`, it is in the register
    that `n` writes, and the value of `n` is needed as well. -/
structure InTheWay (x : Compilation) (b : Int) (blk : Block) (g : Digraph) (top : Int) (r : Reach)
    (n : Int) (s : Slot) (i : Instr) (v : LiveRange) : Prop where
  found : Runs (find b g top r.row n) x s x
  instr : ∃ id, InstrAt x blk n id i
  needed : ∃ o, i.output = some o ∧ o.nextUse.all (fun p => p == 0) = false ∧
    x.ranges.conflict? o.register s.row = some v
  shielded : Shielded x blk i v

variable {x y : Compilation} {top : Int} {r : Reach} {s₀ : Slot} {v : LiveRange}

/-- What becomes of the slot `s₀` found for an instruction when its output is placed: it is
    kept, the value is renamed, or another slot is taken behind the value in the way. -/
inductive Cleared (x : Compilation) (b : Int) (blk : Block) (g : Digraph) (top : Int) (r : Reach)
    (n : Int) (s₀ s : Slot) (y : Compilation) : Prop where
  | kept (hs : s = s₀) (hy : y = x) (hclear : ∀ s' i v, ¬ InTheWay x b blk g top r n s' i v)
  | renamed {i : Instr} {v : LiveRange} (hv : InTheWay x b blk g top r n s₀ i v) (hs : s = s₀)
    (h : Runs (renameValue b blk g n s₀.row v.register (x.ranges.taken s₀.row)) x () y)
  | later {i : Instr} {v : LiveRange} {fault : Fault} {z : Compilation} {floor : Int}
    {printed : String} (hv : InTheWay x b blk g top r n s₀ i v)
    (h : Fails (renameValue b blk g n s₀.row v.register (x.ranges.taken s₀.row)) x fault z)
    (hfloor : v.endRow = some floor) (hlt : s₀.row < floor) (hafter : floor < s.row)
    (hy : y = { z with printed }) (hs : Runs (find b g floor r.row n) y s y)

theorem InTheWay.instr_unique {id : Nat} {i' : Instr} (h : InTheWay x b blk g top r n s i v)
    (hi : InstrAt x blk n id i') : i = i' := by
  obtain ⟨id', hi'⟩ := h.instr
  exact (hi'.unique hi).2

/-- Only one value is in the way of an instruction, at the slot that is found for it. -/
theorem InTheWay.unique {i' : Instr} {v' : LiveRange} (h : InTheWay x b blk g top r n s i v)
    (h' : InTheWay x b blk g top r n s' i' v') :
    s = s' ∧ i = i' ∧ v = v' := by
  obtain ⟨rfl, _⟩ := h.found.unique h'.found
  obtain ⟨id, hid⟩ := h'.instr
  obtain rfl := h.instr_unique hid
  obtain ⟨o, ho, _, hv⟩ := h.needed
  obtain ⟨o', ho', _, hv'⟩ := h'.needed
  obtain rfl := Option.mem_unique ho ho'
  exact ⟨rfl, rfl, Option.mem_unique hv hv'⟩

/-- Placing the output of an instruction: a slot is settled on, then the value is put on
    record if it is needed. -/
theorem cleared_of_placeOutput (hx : Tabled x) (hb : x.blocks[b]? = some blk)
    (hkind : blk.kind = .basic) (htop : -1 ≤ top)
    (hfirst : (g.before n).Pairwise fun p q => q = -1 → p = -1)
    (hfind : Runs (find b g top r.row n) x s₀ x) (h : Runs (placeOutput b blk g r.row n s₀) x s y) :
    ∃ id i z, InstrAt x blk n id i ∧ Cleared x b blk g top r n s₀ s z ∧
      ((z = y ∧ ∀ o, i.output = some o → o.nextUse.all (fun p => p == 0) = true) ∨
      ∃ o last pl, i.output = some o ∧ o.nextUse.all (fun p => p == 0) = false ∧
        Runs (LastUse.find o.nextUse o.register) x last x ∧ Runs (placeOf last) x pl x ∧
        Runs (recordOutput blk n s.row last (if pl.lane.isSome then some pl.time else none))
          z () y) := by
  obtain ⟨id, i, hi, ⟨hs, hy, hunused⟩ | ⟨o, last, pl, z, ho, hneeded, hlast, hpl, hclear, hrecord⟩⟩ :=
    runs_placeOutput h
  · refine ⟨id, i, x, hi, .kept hs rfl fun s' i' v hv => ?_, .inl ⟨hy.symm, hunused⟩⟩
    obtain rfl := hv.instr_unique hi
    obtain ⟨o, ho, hneeded, _⟩ := hv.needed
    rw [hunused o ho] at hneeded
    cases hneeded
  refine ⟨id, i, z, hi, ?_, .inr ⟨o, last, pl, ho, hneeded, hlast, hpl, hrecord⟩⟩
  rcases runs_clearSlot_cases hclear with ⟨hs, hz, hnone⟩ | ⟨v, hv, hshield, havoid⟩
  · refine .kept hs hz fun s' i' v hv => ?_
    obtain ⟨rfl, _⟩ := hfind.unique hv.found
    obtain rfl := hv.instr_unique hi
    obtain ⟨o', ho', _, hconflict⟩ := hv.needed
    obtain rfl := Option.mem_unique ho ho'
    exact hnone v hconflict hv.shielded
  have hway : InTheWay x b blk g top r n s₀ i v := ⟨hfind, ⟨id, hi⟩, ⟨o, ho, hneeded, hv⟩, hshield⟩
  rw [← (LiveRanges.conflict_mem hv).2] at havoid
  rcases runs_avoid_parts havoid with ⟨hs, hrename⟩ | ⟨fault, z', printed, floor, hfail, hend, hagain⟩
  · exact .renamed hway hs hrename
  have hz : Renamed blk x { z' with printed } := renamed_inert z' z'.bounds z'.fusedMoves
    z'.fusedExits _ z'.drawings (attempted_of_fails hx hb hkind hfail).renamed
  have hlt := LiveRanges.lt_of_outlives (LiveRanges.conflict_outlives hv) hend
  have hafter := (find_spec hb hfirst hfind htop hx.lanesNonneg).2.after
  have hb' : ({ z' with printed } : Compilation).blocks[b]? = some blk := by rw [hz.blocks, hb]
  obtain ⟨rfl, hfound⟩ := find_spec hb' hfirst hagain (by omega) (hz.tabled hx).lanesNonneg
  exact .later hway hfail hend hlt hfound.after rfl hagain

section
variable (h : Cleared x b blk g top r n s₀ s y) (hx : Tabled x) (hb : x.blocks[b]? = some blk)
  (hkind : blk.kind = .basic)
include h hx hb hkind

/-- If a value is in the way, its register is given up; where that fails, another slot is
    found behind the value. -/
theorem Cleared.attempted :
    (s = s₀ ∧ y = x) ∨ ∃ i v z printed, InTheWay x b blk g top r n s₀ i v ∧
      Attempted blk g n s₀.row (x.ranges.taken s₀.row) x z ∧ y = { z with printed } ∧
      Renamed blk x y ∧ (s = s₀ ∨ ∃ floor, v.endRow = some floor ∧ s₀.row < floor ∧
        floor < s.row ∧ Runs (find b g floor r.row n) y s y) := by
  cases h with
  | kept hs hy _ => exact .inl ⟨hs, hy⟩
  | renamed hv hs hrename =>
    have hy := attempted_of_runs hx hb hkind hrename
    exact .inr ⟨_, _, y, y.printed, hv, hy, rfl, hy.renamed, .inl hs⟩
  | @later i v fault z floor printed hv hfail hfloor hlt hafter hy hagain =>
    subst hy
    have hz := attempted_of_fails hx hb hkind hfail
    refine .inr ⟨i, v, z, printed, hv, hz, rfl, ?_, .inr ⟨floor, hfloor, hlt, hafter, hagain⟩⟩
    exact renamed_inert z z.bounds z.fusedMoves z.fusedExits _ z.drawings hz.renamed

theorem Cleared.frame (own : Int → Prop) (htop : -1 ≤ top)
    (hfirst : (g.before n).Pairwise fun p q => q = -1 → p = -1)
    (hfind : Runs (find b g top r.row n) x s₀ x) :
    Renamed blk x y ∧ s.Found y b blk (g.before n) top ∧ (s = s₀ ∨ s₀.row < s.row) ∧
      x.ranges.ComesFrom own y.ranges := by
  obtain ⟨_, hfound⟩ := find_spec hb hfirst hfind htop hx.lanesNonneg
  rcases h.attempted hx hb hkind with ⟨rfl, rfl⟩ | ⟨i, v, z, _, _, hz, rfl, hy, hcase⟩
  · exact ⟨Renamed.refl blk _, hfound, .inl rfl, .refl own _⟩
  have hranges : x.ranges.ComesFrom own z.ranges :=
    hz.ranges (.refl own _) fun _ _ _ _ h => h.trans LiveRanges.comesFrom_rename
  rcases hcase with rfl | ⟨floor, _, hlt, hlater, hagain⟩
  · exact ⟨hy, hy.found_iff.mpr hfound, .inl rfl, hranges⟩
  · have hafter := hfound.after
    obtain ⟨_, hfound'⟩ := find_spec (by rw [hy.blocks, hb]) hfirst hagain (by omega)
      (hy.tabled hx).lanesNonneg
    exact ⟨hy, hfound'.mono (by omega), .inr (by omega), hranges⟩

end

theorem runs_placeOutput_frame {k : Nat} (hx : Tabled x) (hb : x.blocks[b]? = some blk)
    (hkind : blk.kind = .basic) (htop : -1 ≤ top)
    (hfirst : (g.before k).Pairwise fun p q => q = -1 → p = -1)
    (hfind : Runs (find b g top r.row k) x s₀ x) (h : Runs (placeOutput b blk g r.row k s₀) x s y) :
    Renamed blk x y ∧ s.Found y b blk (g.before k) top ∧ (s = s₀ ∨ s₀.row < s.row) ∧
      x.ranges.ComesFrom (fun p => p = ((blk.start.toNat + k : Nat) : Int)) y.ranges := by
  obtain ⟨_, _, z, _, hcleared, hcase⟩ :=
    cleared_of_placeOutput hx hb hkind htop hfirst hfind h
  obtain ⟨hz, hfound, hrow, hranges⟩ := hcleared.frame hx hb hkind
    (fun p => p = ((blk.start.toNat + k : Nat) : Int)) htop hfirst hfind
  rcases hcase with ⟨rfl, _⟩ | ⟨_, _, _, _, _, _, _, hrecord⟩
  · exact ⟨hz, hfound, hrow, hranges⟩
  obtain ⟨id, i, o, p, ⟨hid, hi⟩, _, hp, rfl⟩ := runs_recordOutput hrecord
  have hnum : Numbered z.blocks (blk.start.toNat + k) id := by
    rw [hz.blocks]
    exact ⟨b, blk, k, hb, hkind, Position.get_natCast.mp hid, rfl⟩
  obtain ⟨i', hi', hpos⟩ := (hz.tabled hx).instr _ _ hnum
  obtain rfl := Option.mem_unique hi hi'
  exact ⟨hz.setRanges _, ((Renamed.refl blk z).setRanges _).found_iff.mpr hfound, hrow,
    hranges.trans (LiveRanges.comesFrom_define (Option.mem_unique hp hpos))⟩

/-! ## The step -/

theorem runs_placeInstr_parts (h : Runs (placeInstr b blk g lastRow r n) c r' d) :
    ∃ s₀ c₁ s e id i c₂, Runs (find b g lastRow r.row n) c s₀ c₁ ∧
      Runs (placeOutput b blk g r.row n s₀) c₁ s e ∧ InstrAt e blk n id i ∧
      Runs (setPlace i.position fun p => { p with time := s.row, lane := some s.lane })
        { e with ranges := e.ranges.read (i.inputs.map Operand.register) s.row i.position } () c₂ ∧
      Runs (setSlot s.row s.lane id) c₂ () d ∧ r'.row = max r.row s.row := by
  unfold placeInstr at h
  obtain ⟨s₀, c₁, hfind, hrest⟩ := runs_bind.mp h
  obtain ⟨s, e, hout, hput⟩ := runs_bind.mp hrest
  rw [runs_idAt_bind] at hput
  obtain ⟨id, hid, hput⟩ := hput
  rw [runs_instr_bind] at hput
  obtain ⟨i, hi, hput⟩ := hput
  rw [runs_modify_bind] at hput
  obtain ⟨_, c₂, hplace, hput⟩ := runs_bind.mp hput
  obtain ⟨_, c₃, hslot, hret⟩ := runs_bind.mp hput
  rw [runs_lift_bind] at hret
  obtain ⟨p, _, hret⟩ := hret
  obtain ⟨rfl, rfl⟩ := runs_pure.mp hret
  exact ⟨s₀, c₁, s, e, id, i, c₂, hfind, hout, ⟨hid, hi⟩, hplace, hslot, rfl⟩

/-- Instruction `k` of a block, with number `id`, is placed: the slot `s₀` is found, some
    registers of the block may be renamed or another slot `s` may be found, then the
    instruction is put there. -/
structure Inserted (c d : Compilation) (b : Nat) (blk : Block) (g : Digraph) (lastRow : Int)
    (r r' : Reach) (k id : Nat) (e : Compilation) (s₀ s : Slot) : Prop where
  found : Runs (find b g lastRow r.row k) c s₀ c
  output : Runs (placeOutput b blk g r.row k s₀) c s e
  later : s = s₀ ∨ s₀.row < s.row
  renamed : Renamed blk c e
  slot : s.Found e b blk (g.before k) lastRow
  put : PutAt e (blk.start.toNat + k) id s d
  row : r'.row = max r.row s.row
  records : c.ranges.ComesFrom (fun p => p = ((blk.start.toNat + k : Nat) : Int)) d.ranges
  run : Runs (placeInstr b blk g lastRow r k) c r' d

theorem Inserted.kept {b id : Nat} {r : Reach} {e : Compilation} {s₀ s : Slot}
    (h : Inserted c d b blk g lastRow r r' k id e s₀ s) {row lane : Int} {id' : Nat}
    (hs : Table.entry c.table row lane = some (some id')) :
    Table.entry d.table row lane = some (some id') :=
  h.put.kept (h.renamed.table ▸ hs)

theorem runs_placeInstr {id : Nat} (hc : Tabled c) (hb : c.blocks[b]? = some blk)
    (hkind : blk.kind = .basic) (hk : blk.body[k]? = some id) (hlast : -1 ≤ lastRow)
    (hfirst : (g.before k).Pairwise fun p q => q = -1 → p = -1)
    (h : Runs (placeInstr b blk g lastRow r k) c r' d) :
    ∃ e s₀ s, Inserted c d b blk g lastRow r r' k id e s₀ s := by
  obtain ⟨s₀, c₁, s, e, id', i', c₂, hfind, hout, ⟨hid', hi'⟩, hplace, hslot, hrow⟩ :=
    runs_placeInstr_parts h
  obtain ⟨rfl, _⟩ := find_spec hb hfirst hfind hlast hc.lanesNonneg
  rw [Position.get_natCast, hk] at hid'
  cases hid'
  obtain ⟨he, hs, hlater, hranges⟩ := runs_placeOutput_frame hc hb hkind hlast hfirst hfind hout
  have hq : Numbered e.blocks (blk.start.toNat + k) id := by
    rw [he.blocks]
    exact ⟨b, blk, k, hb, hkind, hk, rfl⟩
  obtain ⟨i, hi, hpos⟩ := (he.tabled hc).instr _ _ hq
  rw [hi] at hi'
  cases hi'
  obtain ⟨q, pl, schedule, hq', hpl, hset, rfl⟩ := runs_setPlace.mp hplace
  rw [hpos] at hq'
  cases hq'
  rw [Position.get_natCast] at hpl
  obtain ⟨hlt, rfl⟩ := (Position.set_of_nonneg (by omega)).mp hset
  rw [Int.toNat_natCast] at hlt
  obtain ⟨_, hrest, hentry⟩ := runs_setSlot_entry hs.free.row_nonneg hs.free.lane_nonneg hslot
  refine ⟨e, s₀, s, hfind, hout, hlater, he, hs, ⟨hs.free, ?_, hentry, ?_⟩, hrow, ?_, h⟩
  · intro q'
    rw [hrest]
    show (e.schedule.setIfInBounds _ _)[q']? = _
    rw [Array.getElem?_setIfInBounds, Int.toNat_natCast, hpl]
    by_cases hq' : q' = blk.start.toNat + k
    · subst hq'
      rw [if_pos rfl, if_pos hlt, if_pos rfl]
      rfl
    · rw [if_neg (Ne.symm hq'), if_neg hq']
  · rw [hrest]
  · rw [hrest]
    exact hranges.trans LiveRanges.comesFrom_read

end Schedule
end BpfLanes
