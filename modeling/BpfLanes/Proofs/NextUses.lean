import BpfLanes.Proofs.Prepared
import BpfLanes.Proofs.ProgramPlacement

/-! # Next uses inside a block

One backward walk over a block tells every operand where its value is used next.
If the next instruction that touches a register reads it, that instruction is the
next use: of the value that is written before it, and of the value that is read
before it. An instruction that reads a register twice is, for its second operand,
its own next use.
-/

namespace BpfLanes

open Compilation BpfLanes.Flow

variable {a i x y : Instr} {now p r : Int} {is plain : List Instr} {o : Operand} {s : Symbol}
  {t : Symbols} {u : Unit}

/-! ## Symbols -/

theorem Symbols.lookup_map_other {r' : Int} (hne : r' ≠ r) :
    (t.map fun e => if e.1 == r then (r, s) else e).lookup r' = t.lookup r' := by
  induction t with
  | nil => rfl
  | cons e t ih =>
    obtain ⟨k, v⟩ := e
    by_cases hk : k = r
    · subst hk
      have hkey : (r' == k) = false := by simp [hne]
      simp only [List.map_cons, BEq.rfl, if_true, List.lookup_cons, hkey, ih]
    · have hkey : ¬ (k == r) = true := by simp [hk]
      rw [List.map_cons, if_neg hkey, List.lookup_cons, List.lookup_cons, ih]

theorem Symbols.lookup_map_self (h : (t.any fun e => e.1 == r) = true) :
    (t.map fun e => if e.1 == r then (r, s) else e).lookup r = some s := by
  induction t with
  | nil => cases h
  | cons e t ih =>
    obtain ⟨k, v⟩ := e
    by_cases hk : k = r
    · subst hk
      simp
    · have hkey : ¬ (k == r) = true := by simp [hk]
      have hkey' : (r == k) = false := by simp [Ne.symm hk]
      have htail : (t.any fun e => e.1 == r) = true := by simpa [hk] using h
      rw [List.map_cons, if_neg hkey, List.lookup_cons, hkey']
      exact ih htail

theorem lookup_eq_none_of_not_any {α : Type} {t : List (Int × α)}
    (h : ¬ (t.any fun e => e.1 == r) = true) : t.lookup r = none := by
  rw [List.lookup_eq_none_iff]
  intro e he
  have hne : ¬ e.1 = r := by
    intro heq
    exact h (List.any_eq_true.mpr ⟨e, he, by simp [heq]⟩)
  simp [Ne.symm hne]

theorem Symbols.lookup_put (t : Symbols) (r r' : Int) (s : Symbol) :
    (t.put r s).lookup r' = if r' = r then some s else t.lookup r' := by
  unfold Symbols.put
  by_cases hany : (t.any fun e => e.1 == r) = true
  · rw [if_pos hany]
    by_cases hr : r' = r
    · subst hr
      rw [if_pos rfl, lookup_map_self hany]
    · rw [if_neg hr, lookup_map_other hr]
  · rw [if_neg hany, List.lookup_append]
    by_cases hr : r' = r
    · subst hr
      simp [lookup_eq_none_of_not_any hany]
    · have hkey : (r' == r) = false := by simp [hr]
      simp [hr, List.lookup_cons, hkey]

/-! ## Operands -/

namespace Liveness

variable {os : List Operand} {liveOut : RegMap} {position : Option Int} {symbols : Symbols}
theorem markInput_fst :
    (markInput liveOut position symbols o).1
      = symbols.put o.register { live := true, nextUse := position } := by
  unfold markInput
  dsimp only
  split <;> rfl

theorem markInput_snd_of_lookup (h : symbols.lookup o.register = some s) :
    (markInput liveOut position symbols o).2 = { o with live := s.live, nextUse := s.nextUse } := by
  unfold markInput
  rw [h]

theorem markInputs_cons :
    markInputs liveOut position symbols (o :: os) =
      ((markInputs liveOut position (markInput liveOut position symbols o).1 os).1,
        (markInput liveOut position symbols o).2 ::
          (markInputs liveOut position (markInput liveOut position symbols o).1 os).2) := rfl

theorem markInput_register : (markInput liveOut position symbols o).2.register = o.register := by
  have hbare : (markInput liveOut position symbols o).2.bare = o.bare := markInput_bare
  simpa [Operand.bare] using hbare

theorem lookup_markInputs_other (h : ∀ o ∈ os, o.register ≠ r) :
    (markInputs liveOut position symbols os).1.lookup r = symbols.lookup r := by
  induction os generalizing symbols with
  | nil => rfl
  | cons o os ih =>
    have hne : r ≠ o.register := Ne.symm (h o List.mem_cons_self)
    rw [markInputs_cons, ih fun o' ho' => h o' (List.mem_cons_of_mem _ ho'), markInput_fst,
      Symbols.lookup_put, if_neg hne]

theorem lookup_markInputs_read (h : ∃ o ∈ os, o.register = r) :
    (markInputs liveOut position symbols os).1.lookup r
      = some { live := true, nextUse := position } := by
  induction os generalizing symbols with
  | nil =>
    obtain ⟨o, ho, _⟩ := h
    cases ho
  | cons o os ih =>
    rw [markInputs_cons]
    by_cases hlater : ∃ o' ∈ os, o'.register = r
    · exact ih hlater
    · have hother : ∀ o' ∈ os, o'.register ≠ r := fun o' ho' heq => hlater ⟨o', ho', heq⟩
      rw [lookup_markInputs_other hother, markInput_fst, Symbols.lookup_put]
      obtain ⟨o', ho', heq⟩ := h
      rcases List.mem_cons.mp ho' with rfl | hmem
      · rw [if_pos heq.symm]
      · exact absurd heq (hother o' hmem)

theorem lookup_markOutput_other (h : o.register ≠ r) :
    (markOutput liveOut symbols o).1.lookup r = symbols.lookup r := by
  unfold markOutput
  split
  · split <;> rw [Symbols.lookup_put, if_neg (Ne.symm h)]
  · rw [Symbols.lookup_put, if_neg (Ne.symm h)]

/-! ## Walking along marked operands -/

theorem hopInputs_other (h : ∀ o ∈ os, o.register ≠ r) :
    LastUse.hopInputs r now os = .next now := by
  induction os with
  | nil => rfl
  | cons o os ih =>
    have hne : (o.register == r) = false := by simp [h o List.mem_cons_self]
    unfold LastUse.hopInputs
    rw [hne]
    exact ih fun o' ho' => h o' (List.mem_cons_of_mem _ ho')

theorem register_ne_of_marked (h : ∀ o ∈ os, o.register ≠ r) :
    ∀ o ∈ (markInputs liveOut position symbols os).2, o.register ≠ r := by
  induction os generalizing symbols with
  | nil => simp [markInputs]
  | cons o os ih =>
    intro o' ho'
    rw [markInputs_cons] at ho'
    rcases List.mem_cons.mp ho' with rfl | hmem
    · rw [markInput_register]
      exact h o List.mem_cons_self
    · exact ih (fun x hx => h x (List.mem_cons_of_mem _ hx)) o' hmem

theorem hopInputs_markInputs {a : Int} {live : Bool} (hr : ∃ o ∈ os, o.register = r)
    (hs : symbols.lookup r = some { live := live, nextUse := some a }) :
    LastUse.hopInputs r now (markInputs liveOut (some p) symbols os).2 = .next a ∨
      LastUse.hopInputs r now (markInputs liveOut (some p) symbols os).2 = .next p := by
  induction os generalizing symbols now a live with
  | nil =>
    obtain ⟨o, ho, _⟩ := hr
    cases ho
  | cons o os ih =>
    rw [markInputs_cons]
    unfold LastUse.hopInputs
    rw [markInput_register]
    by_cases ho : o.register = r
    · rw [if_pos (by simp [ho]), markInput_snd_of_lookup (s := ⟨live, some a⟩) (by rw [ho, hs])]
      dsimp only
      -- a second input with the register was marked with the instruction itself
      by_cases hlater : ∃ o' ∈ os, o'.register = r
      · have hself : (markInput liveOut (some p) symbols o).1.lookup r
            = some { live := true, nextUse := some p } := by
          rw [markInput_fst, Symbols.lookup_put, if_pos ho.symm]
        exact .inr ((ih hlater hself).elim id id)
      · refine .inl (hopInputs_other (register_ne_of_marked ?_))
        intro o' ho' heq
        exact hlater ⟨o', ho', heq⟩
    · rw [if_neg (by simp [ho])]
      have hlater : ∃ o' ∈ os, o'.register = r := by
        obtain ⟨o', ho', heq⟩ := hr
        rcases List.mem_cons.mp ho' with rfl | hmem
        · exact absurd heq ho
        · exact ⟨o', hmem, heq⟩
      have hkept : (markInput liveOut (some p) symbols o).1.lookup r
          = some { live := live, nextUse := some a } := by
        rwa [markInput_fst, Symbols.lookup_put, if_neg (Ne.symm ho)]
      exact ih hlater hkept

/-! ## Instructions -/

/-- What is known about registers between the output of an instruction and its
    inputs. -/
def afterOutput (liveOut : RegMap) (symbols : Symbols) (i : Instr) : Symbols :=
  match i.output with
  | some o => (markOutput liveOut symbols o).1
  | none => symbols

theorem markInstr_eq :
    markInstr liveOut symbols i =
      ((markInputs liveOut i.position (afterOutput liveOut symbols i) i.inputs).1,
        { i with
          output := i.output.map fun o => (markOutput liveOut symbols o).2
          inputs := (markInputs liveOut i.position (afterOutput liveOut symbols i) i.inputs).2 }) := by
  unfold markInstr afterOutput
  cases ho : i.output with
  | none => rfl
  | some o => rfl

theorem lookup_afterOutput (h : i.writes r = false) :
    (afterOutput liveOut symbols i).lookup r = symbols.lookup r := by
  unfold afterOutput
  unfold Instr.writes at h
  cases ho : i.output with
  | none => rfl
  | some o =>
    rw [ho] at h
    exact lookup_markOutput_other (by simpa using h)

theorem lookup_markInstr_other (hr : i.reads r = false) (hw : i.writes r = false) :
    (markInstr liveOut symbols i).1.lookup r = symbols.lookup r := by
  have hother : ∀ o ∈ i.inputs, o.register ≠ r := by simpa [Instr.reads] using hr
  rw [markInstr_eq, lookup_markInputs_other hother, lookup_afterOutput hw]

theorem lookup_markInstr_read (hr : i.reads r = true) :
    (markInstr liveOut symbols i).1.lookup r = some { live := true, nextUse := i.position } := by
  have hmem : ∃ o ∈ i.inputs, o.register = r := by simpa [Instr.reads] using hr
  rw [markInstr_eq, lookup_markInputs_read hmem]

theorem lookup_markInstr_written (hr : i.reads r = false) (hw : i.writes r = true) :
    (markInstr liveOut symbols i).1.lookup r = some (match symbols.lookup r, liveOut.get? r with
      | none, some p => { live := true, nextUse := some p }
      | _, _ => { live := false, nextUse := none }) := by
  have hother : ∀ o ∈ i.inputs, o.register ≠ r := by simpa [Instr.reads] using hr
  rw [markInstr_eq, lookup_markInputs_other hother]
  unfold afterOutput
  unfold Instr.writes at hw
  cases ho : i.output with
  | none => simp [ho] at hw
  | some o =>
    obtain rfl : o.register = r := by simpa [ho] using hw
    dsimp only
    unfold markOutput
    cases symbols.lookup o.register with
    | none => cases liveOut.get? o.register <;> simp [Symbols.lookup_put]
    | some s => simp [Symbols.lookup_put]

/-! ## Blocks -/

/-- The first instruction of a sequence that touches a register is number `t`, and it
    reads it. -/
structure ReadNext (is : List Instr) (r : Int) (t : Nat) (i : Instr) : Prop where
  here : is[t]? = some i
  reads : i.reads r = true
  untouched : ∀ (m : Nat) (a : Instr), m < t → is[m]? = some a →
    a.reads r = false ∧ a.writes r = false

theorem ReadNext.tail {t : Nat} (h : ReadNext (a :: is) r (t + 1) i) : ReadNext is r t i := by
  refine ⟨by simpa using h.here, h.reads, ?_⟩
  intro m b hm hb
  exact h.untouched (m + 1) b (by omega) (by simpa using hb)

variable {t : Nat}

theorem markBody_cons : markBody liveOut (a :: is) =
      ((markInstr liveOut (markBody liveOut is).1 a).1,
        (markInstr liveOut (markBody liveOut is).1 a).2 :: (markBody liveOut is).2) := rfl

theorem lookup_markBody (h : ReadNext is r t i) :
    (markBody liveOut is).1.lookup r = some { live := true, nextUse := i.position } := by
  induction is generalizing t with
  | nil =>
    have hnone := h.here
    simp at hnone
  | cons a is ih =>
    rw [markBody_cons]
    cases t with
    | zero =>
      have ha : a = i := by simpa using h.here
      rw [ha]
      exact lookup_markInstr_read h.reads
    | succ t =>
      obtain ⟨hr, hw⟩ := h.untouched 0 a (by omega) rfl
      rw [lookup_markInstr_other hr hw]
      exact ih h.tail

theorem lookup_markBody_eq_none :
    (markBody liveOut is).1.lookup r = none ↔ ∀ a ∈ is, a.reads r = false ∧ a.writes r = false := by
  induction is with
  | nil => simp [markBody]
  | cons a is ih =>
    rw [markBody_cons, List.forall_mem_cons]
    cases hr : a.reads r with
    | true => simp [lookup_markInstr_read hr]
    | false =>
      cases hw : a.writes r with
      | true => simp only [lookup_markInstr_written hr hw, reduceCtorEq, false_and, and_false]
      | false => simp [lookup_markInstr_other hr hw, ih]

theorem markBody_getElem? {k : Nat} :
    (markBody liveOut is).2[k]? =
      is[k]?.map fun a => (markInstr liveOut (markBody liveOut (is.drop (k + 1))).1 a).2 := by
  induction is generalizing k with
  | nil => rfl
  | cons a is ih =>
    rw [markBody_cons]
    cases k with
    | zero => rfl
    | succ k => simpa using ih

end Liveness

open Liveness hiding analyse

/-! ## The instructions of a block -/

/-- An instruction without the number of its inputs that others must provide. -/
def Instr.settled (i : Instr) : Instr :=
  { i with pending := 0 }

/-- The operands of a block know their next uses, and nothing else. -/
def NextUses (c : Compilation) (blk : Block) : Prop :=
  ∃ plain : List Instr, (∀ a ∈ plain, a.Unmarked) ∧ (c.bodyOf blk).map Instr.settled
    = (markBody blk.liveOut plain).2.map Instr.settled

theorem Instr.bare_of_settled (h : x.settled = y.settled) : x.bare = y.bare := by
  simp only [Instr.settled, Instr.mk.injEq] at h
  obtain ⟨hword, htext, hin, hout, hpos, hto, _⟩ := h
  simp only [Instr.bare, hword, htext, hin, hout, hpos, hto]

theorem Instr.reads_of_bare (h : x.bare = y.bare) (r : Int) : x.reads r = y.reads r := by
  obtain ⟨_, _, _, _, hin, _⟩ := Instr.of_bare h
  have hany : ∀ i : Instr, i.reads r = (i.inputs.map Operand.register).any fun q => q == r := by
    intro i
    rw [List.any_map]
    rfl
  rw [hany, hany, hin]

theorem Instr.writes_of_bare (h : x.bare = y.bare) (r : Int) : x.writes r = y.writes r := by
  obtain ⟨_, _, _, _, _, hout⟩ := Instr.of_bare h
  have hany : ∀ i : Instr, i.writes r = (i.output.map Operand.register).any fun q => q == r := by
    intro i
    rw [Option.any_map]
    rfl
  rw [hany, hany, hout]

theorem Liveness.ReadNext.of_bare {js : List Instr} {t : Nat} (h : ReadNext is r t i)
    (hbare : is.map Instr.bare = js.map Instr.bare) :
    ∃ j, ReadNext js r t j ∧ j.position = i.position := by
  have hget : ∀ (m : Nat) (x : Instr), js[m]? = some x → ∃ y, is[m]? = some y ∧ y.bare = x.bare := by
    intro m x hx
    have hmap : (is.map Instr.bare)[m]? = some x.bare := by
      rw [hbare, List.getElem?_map, hx]
      rfl
    rw [List.getElem?_map, Option.map_eq_some_iff] at hmap
    exact hmap
  have hlt : t < js.length := by
    have hlen := congrArg List.length hbare
    have hi := (List.getElem?_eq_some_iff.mp h.here).1
    simp only [List.length_map] at hlen
    omega
  obtain ⟨i', hi', hsame⟩ := hget t js[t] (List.getElem?_eq_getElem hlt)
  rw [h.here] at hi'
  cases hi'
  refine ⟨js[t], ⟨List.getElem?_eq_getElem hlt, ?_, ?_⟩, ?_⟩
  · rw [← Instr.reads_of_bare hsame]
    exact h.reads
  · intro m a hm ha
    obtain ⟨y, hy, hya⟩ := hget m a ha
    rw [← Instr.reads_of_bare hya, ← Instr.writes_of_bare hya]
    exact h.untouched m y hm hy
  · exact (Instr.of_bare hsame).2.2.1.symm

variable {c d : Compilation} {blk : Block} {b k t : Nat}

section
variable
  (h : (c.bodyOf blk).map Instr.settled = (markBody blk.liveOut plain).2.map Instr.settled)
include h

theorem NextUses.marked (ha : (c.bodyOf blk)[k]? = some a) :
    ∃ a₀, plain[k]? = some a₀ ∧ a₀.bare = a.bare ∧ a.settled =
      (markInstr blk.liveOut
        (markBody blk.liveOut (plain.drop (k + 1))).1 a₀).2.settled := by
  have hmap : ((markBody blk.liveOut plain).2.map Instr.settled)[k]? = some a.settled := by
    rw [← h, List.getElem?_map, ha]
    rfl
  rw [List.getElem?_map, markBody_getElem?, Option.map_map, Option.map_eq_some_iff] at hmap
  obtain ⟨a₀, ha₀, hsame⟩ := hmap
  refine ⟨a₀, ha₀, ?_, hsame.symm⟩
  exact markInstr_bare.symm.trans (Instr.bare_of_settled hsame)

theorem NextUses.bare : (c.bodyOf blk).map Instr.bare = plain.map Instr.bare := by
  have hsettled : ∀ is : List Instr, is.map Instr.bare = (is.map Instr.settled).map Instr.bare := by
    intro is
    rw [List.map_map]
    rfl
  rw [hsettled, h, ← hsettled, markBody_bare]

theorem NextUses.bare_drop (k : Nat) :
    ((c.bodyOf blk).drop (k + 1)).map Instr.bare = (plain.drop (k + 1)).map Instr.bare := by
  rw [List.map_drop, List.map_drop, NextUses.bare h]

theorem NextUses.marked_output (ha : (c.bodyOf blk)[k]? = some a) (ho : a.output = some o) :
    ∃ a₀ o₀, plain[k]? = some a₀ ∧ a₀.output = some o₀ ∧ o₀.register = o.register ∧
      (markOutput blk.liveOut
        (markBody blk.liveOut (plain.drop (k + 1))).1 o₀).2 = o := by
  obtain ⟨a₀, ha₀, hbare, hmarked⟩ := NextUses.marked h ha
  have hout : a.output = a₀.output.map fun o' => (markOutput blk.liveOut
      (markBody blk.liveOut (plain.drop (k + 1))).1 o').2 := by
    have hfield := congrArg Instr.output hmarked
    rwa [markInstr_eq] at hfield
  rw [ho] at hout
  obtain ⟨o₀, ho₀, hmark⟩ := Option.map_eq_some_iff.mp hout.symm
  have hregs := (Instr.of_bare hbare).2.2.2.2.2
  rw [ho, ho₀] at hregs
  exact ⟨a₀, o₀, ha₀, ho₀, Option.some.inj hregs, hmark⟩

end

section
variable (h : NextUses c blk) (ha : (c.bodyOf blk)[k]? = some a)
include h ha

theorem NextUses.output (ho : a.output = some o)
    (hnext : ReadNext ((c.bodyOf blk).drop (k + 1)) o.register t i) :
    o.nextUse = i.position := by
  obtain ⟨plain, _, hplain⟩ := h
  obtain ⟨a₀, o₀, _, _, hreg, hmark⟩ := NextUses.marked_output hplain ha ho
  obtain ⟨j, hj, hpos⟩ := hnext.of_bare (NextUses.bare_drop hplain k)
  have hlook : (markBody blk.liveOut (plain.drop (k + 1))).1.lookup o.register
      = some { live := true, nextUse := j.position } := lookup_markBody hj
  rw [← hmark]
  unfold markOutput
  rwa [hreg, hlook]

theorem NextUses.output_none (ho : a.output = some o)
    (hrest : ∀ b ∈ (c.bodyOf blk).drop (k + 1), b.reads o.register = false ∧ b.writes o.register = false)
    (hlive : blk.liveOut.get? o.register = none) : o.nextUse = none := by
  obtain ⟨plain, hfresh, hplain⟩ := h
  obtain ⟨a₀, o₀, ha₀, ho₀, hreg, hmark⟩ := NextUses.marked_output hplain ha ho
  have hlook : (markBody blk.liveOut (plain.drop (k + 1))).1.lookup o.register = none := by
    refine lookup_markBody_eq_none.mpr fun b hb => ?_
    have hmap := List.mem_map_of_mem (f := Instr.bare) hb
    rw [← NextUses.bare_drop hplain k] at hmap
    obtain ⟨b', hb', hbare⟩ := List.mem_map.mp hmap
    rw [← Instr.reads_of_bare hbare, ← Instr.writes_of_bare hbare]
    exact hrest b' hb'
  -- nothing is known after it, so its output stays as it was parsed
  rw [← hmark]
  unfold markOutput
  rw [hreg, hlook, hlive]
  have hbare := (hfresh a₀ (List.mem_of_getElem? ha₀)).2
  rw [ho₀] at hbare
  exact (congrArg Operand.nextUse (Option.some.inj hbare)).symm

theorem NextUses.hop {q : Int} (hr : a.reads r = true) (hw : a.writes r = false)
    (hp : a.position = some p) (hnext : ReadNext ((c.bodyOf blk).drop (k + 1)) r t i)
    (hq : i.position = some q) :
    LastUse.hopInputs r now a.inputs = .next q ∨ LastUse.hopInputs r now a.inputs = .next p := by
  obtain ⟨plain, _, hplain⟩ := h
  obtain ⟨a₀, ha₀, hbare, hmarked⟩ := NextUses.marked hplain ha
  obtain ⟨j, hj, hpos⟩ := hnext.of_bare (NextUses.bare_drop hplain k)
  have hin : a.inputs = (markInputs blk.liveOut a₀.position
      (afterOutput blk.liveOut
        (markBody blk.liveOut (plain.drop (k + 1))).1 a₀) a₀.inputs).2 := by
    have hfield := congrArg Instr.inputs hmarked
    rwa [markInstr_eq] at hfield
  -- the symbols behind the instruction know the next use, and its output leaves them alone
  have hlook : (afterOutput blk.liveOut
      (markBody blk.liveOut (plain.drop (k + 1))).1 a₀).lookup r
        = some { live := true, nextUse := some q } := by
    rw [lookup_afterOutput ((Instr.writes_of_bare hbare r).trans hw),
      lookup_markBody hj, hpos, hq]
  have hread : ∃ o ∈ a₀.inputs, o.register = r := by
    have hr₀ : a₀.reads r = true := (Instr.reads_of_bare hbare r).trans hr
    simpa [Instr.reads] using hr₀
  have hp₀ : a₀.position = some p := (Instr.of_bare hbare).2.2.1.trans hp
  rw [hin, hp₀]
  exact hopInputs_markInputs hread hlook

end

/-! ## The walk over all blocks -/

theorem runs_setInstrs {ids : List Nat} (hnodup : ids.Nodup) (hlen : is.length = ids.length)
    (hin : ∀ id ∈ ids, id < c.store.size)
    (h : Runs ((ids.zip is).forM fun x => setInstr x.1 x.2) c u d) :
    d = { c with store := d.store } ∧ d.store.size = c.store.size ∧
      (∀ id, id ∉ ids → d.store[id]? = c.store[id]?) ∧
      (ids.filterMap fun id => d.store[id]?) = is := by
  -- the numbers differ, so what is written first is not overwritten
  induction ids generalizing is c with
  | nil =>
    obtain ⟨_, rfl⟩ := runs_pure.mp h
    obtain rfl : is = [] := List.eq_nil_of_length_eq_zero hlen
    exact ⟨rfl, rfl, fun _ _ => rfl, rfl⟩
  | cons id ids ih =>
    cases is with
    | nil => cases hlen
    | cons i is =>
      obtain ⟨hnew, hnodup'⟩ := List.nodup_cons.mp hnodup
      have hrest : Runs ((ids.zip is).forM fun x => setInstr x.1 x.2)
          { c with store := c.store.setIfInBounds id i } u d := runs_setInstr_bind.mp h
      obtain ⟨hd, hsize, hother, hget⟩ := ih hnodup' (Nat.succ.inj hlen) (by simp_all) hrest
      refine ⟨?_, ?_, ?_, ?_⟩
      · rw [hd]
      · rw [hsize, Array.size_setIfInBounds]
      · intro id' hid'
        have hne : id ≠ id' := fun heq => hid' (heq ▸ List.mem_cons_self)
        rw [hother id' fun hmem => hid' (List.mem_cons_of_mem _ hmem)]
        exact Array.getElem?_setIfInBounds_ne hne
      · have hfirst : d.store[id]? = some i := by
          rw [hother id hnew]
          exact Array.getElem?_setIfInBounds_self_of_lt (hin id List.mem_cons_self)
        rw [List.filterMap_cons_some hfirst, hget]

theorem runs_markBlock (hnodup : blk.body.toList.Nodup)
    (hin : ∀ id ∈ blk.body.toList, id < c.store.size) (hb : c.blocks[b]? = some blk)
    (hkind : blk.kind = .basic) (h : Runs (markBlock b) c u d) :
    (∃ symbols, d.blocks = c.blocks.setIfInBounds b { blk with symbols }) ∧
      d.store.size = c.store.size ∧ (∀ id, id ∉ blk.body → d.store[id]? = c.store[id]?) ∧
      d.bodyOf blk = (markBody blk.liveOut (c.bodyOf blk)).2 := by
  unfold markBlock at h
  rw [runs_block_bind] at h
  obtain ⟨blk', hblk', h⟩ := h
  rw [Position.get_natCast, hb] at hblk'
  cases hblk'
  rw [if_pos hkind, runs_body_bind] at h
  dsimp only at h
  obtain ⟨_, d₁, hwrite, hset⟩ := runs_bind.mp h
  -- marking keeps the number of instructions
  have hlen : (markBody blk.liveOut (c.bodyOf blk)).2.length = blk.body.toList.length := by
    have hbare : (markBody blk.liveOut (c.bodyOf blk)).2.map Instr.bare
        = (c.bodyOf blk).map Instr.bare := markBody_bare
    have hlength := congrArg List.length hbare
    rw [List.length_map, List.length_map] at hlength
    rw [hlength]
    exact (getElem?_filterMap_total fun id hid =>
      ⟨_, Array.getElem?_eq_getElem (hin id hid)⟩).2
  obtain ⟨hd₁, hsize, hother, hget⟩ := runs_setInstrs hnodup hlen hin hwrite
  obtain ⟨blocks, hblocks, rfl⟩ := runs_setBlock.mp hset
  obtain ⟨_, rfl⟩ := (Position.set_of_nonneg (by omega)).mp hblocks
  refine ⟨⟨(markBody blk.liveOut (c.bodyOf blk)).1, ?_⟩, hsize, ?_, hget⟩
  · show d₁.blocks.setIfInBounds _ _ = _
    rw [hd₁]
    rfl
  · intro id hid
    exact hother id fun hmem => hid (Array.mem_toList_iff.mp hmem)

/-- Basic blocks have instructions of their own, and these are as they were parsed. -/
structure Unwalked (c : Compilation) : Prop where
  closed : Closed c
  nodup : ∀ (b : Nat) (blk : Block), c.blocks[b]? = some blk → blk.kind = .basic →
    blk.body.toList.Nodup
  own : ∀ (b b' : Nat) (blk blk' : Block) (id : Nat), c.blocks[b]? = some blk →
    c.blocks[b']? = some blk' → blk.kind = .basic → blk'.kind = .basic → id ∈ blk.body →
    id ∈ blk'.body → b = b'
  plain : ∀ (b : Nat) (blk : Block), c.blocks[b]? = some blk → blk.kind = .basic →
    ∀ a ∈ c.bodyOf blk, a.Unmarked

/-- Of the blocks of `c` the first `m` are marked, the others are as they were. -/
structure MarkedTo (c : Compilation) (m : Nat) (t : Compilation) : Prop where
  size : t.store.size = c.store.size
  blocks : ∀ (b : Nat) (blk : Block), t.blocks[b]? = some blk →
    ∃ symbols, c.blocks[b]? = some { blk with symbols }
  body : ∀ (b : Nat) (blk : Block), t.blocks[b]? = some blk → blk.kind = .basic →
    t.bodyOf blk = if b < m then (markBody blk.liveOut (c.bodyOf blk)).2 else c.bodyOf blk

theorem MarkedTo.step {m : Nat} {t : Compilation} (hc : Unwalked c) (hm : MarkedTo c m t)
    (h : Runs (markBlock m) t u d) : MarkedTo c (m + 1) d := by
  obtain ⟨blk₀, hblk₀⟩ : ∃ blk₀, t.blocks[m]? = some blk₀ := by
    unfold markBlock at h
    rw [runs_block_bind] at h
    obtain ⟨blk₀, hblk₀, _⟩ := h
    exact ⟨blk₀, Position.get_natCast.mp hblk₀⟩
  obtain ⟨_, hold₀⟩ := hm.blocks m blk₀ hblk₀
  by_cases hkind₀ : blk₀.kind = .basic
  · have hnodup := hc.nodup m _ hold₀ hkind₀
    have hclosed := hc.closed m _ hold₀ hkind₀
    dsimp only at hnodup hclosed
    rw [← hm.size] at hclosed
    obtain ⟨⟨symbols, hblocks⟩, hsize, hother, hmarked⟩ :=
      runs_markBlock hnodup hclosed hblk₀ hkind₀ h
    have hlt : m < t.blocks.size := lt_size hblk₀
    refine ⟨hsize.trans hm.size, ?_, ?_⟩
    · intro b blk hblk
      by_cases heq : m = b
      · subst heq
        rw [hblocks, Array.getElem?_setIfInBounds_self_of_lt hlt] at hblk
        cases hblk
        exact ⟨_, hold₀⟩
      · rw [hblocks, Array.getElem?_setIfInBounds_ne heq] at hblk
        exact hm.blocks b blk hblk
    · intro b blk hblk hkind
      by_cases heq : m = b
      · subst heq
        rw [hblocks, Array.getElem?_setIfInBounds_self_of_lt hlt] at hblk
        cases hblk
        have hbefore := hm.body m blk₀ hblk₀ hkind₀
        rw [if_neg (Nat.lt_irrefl m)] at hbefore
        rw [if_pos (Nat.lt_succ_self m)]
        exact hbefore ▸ hmarked
      · -- the instructions of another block are not among those that were written
        rw [hblocks, Array.getElem?_setIfInBounds_ne heq] at hblk
        obtain ⟨_, hold⟩ := hm.blocks b blk hblk
        have hsame : d.bodyOf blk = t.bodyOf blk := by
          refine List.filterMap_congr fun id hid => hother id fun hmem => heq ?_
          exact hc.own m b _ _ id hold₀ hold hkind₀ hkind hmem (Array.mem_toList_iff.mp hid)
        rw [hsame, hm.body b blk hblk hkind]
        exact if_congr (by omega) rfl rfl
  · have hsame : d = t := by
      unfold markBlock at h
      rw [runs_block_bind] at h
      obtain ⟨blk', hblk', h⟩ := h
      rw [Position.get_natCast, hblk₀] at hblk'
      cases hblk'
      rw [if_neg hkind₀] at h
      exact (runs_pure.mp h).2
    subst hsame
    refine ⟨hm.size, hm.blocks, ?_⟩
    intro b blk hblk hkind
    have hne : b ≠ m := by
      rintro rfl
      rw [hblk₀] at hblk
      cases hblk
      exact hkind₀ hkind
    rw [hm.body b blk hblk hkind]
    exact if_congr (by omega) rfl rfl

theorem keeps_releaseEntry_settled :
    Keeps (fun t => t.store.map Instr.settled = c.store.map Instr.settled ∧ t.blocks = c.blocks)
      releaseEntry := by
  refine keeps_bind keeps_block fun entry => keeps_forM fun x _ => ?_
  refine keeps_bind keeps_placeOf fun p => keeps_bind (keeps_lift _) fun b => ?_
  refine keeps_bind keeps_block fun blk => keeps_forM fun id _ => ?_
  refine gives_bind (P := fun i => (c.store.map Instr.settled)[id]? = some i.settled)
    (gives_of_runs keeps_instr ?_) fun i hi => keeps_ite ?_ (keeps_pure _)
  · intro t i t' ht hr
    obtain ⟨hi, _⟩ := runs_instr.mp hr
    rw [← ht.1, Array.getElem?_map, hi]
    rfl
  · refine keeps_modify fun t ht => ⟨?_, ht.2⟩
    have hsame : (t.store.map Instr.settled)[id]? = some i.settled := by
      rwa [ht.1]
    rw [Array.map_setIfInBounds, ← ht.1]
    show (t.store.map Instr.settled).setIfInBounds id i.settled = _
    grind

theorem runs_insideBlocks (hc : Unwalked c) (h : Runs insideBlocks c u d)
    (hb : d.blocks[b]? = some blk) (hkind : blk.kind = .basic) :
    (∃ symbols, c.blocks[b]? = some { blk with symbols }) ∧
      (d.bodyOf blk).map Instr.settled
        = (markBody blk.liveOut (c.bodyOf blk)).2.map Instr.settled := by
  unfold insideBlocks at h
  rw [runs_get_bind] at h
  obtain ⟨_, t, hmark, hrelease⟩ := runs_bind.mp h
  have hall := runs_forM_induct (MarkedTo c) hmark
    ⟨rfl, fun b blk hblk => ⟨blk.symbols, hblk⟩, fun b blk _ _ => rfl⟩ fun m x t t' hx ht hr => by
      obtain ⟨_, rfl⟩ := List.getElem?_eq_some_iff.mp hx
      rw [List.getElem_range] at hr
      exact ht.step hc hr
  obtain ⟨hstore, hblocks⟩ := (keeps_releaseEntry_settled (c := t)).runs hrelease ⟨rfl, rfl⟩
  rw [hblocks] at hb
  obtain ⟨symbols, hold⟩ := hall.blocks b blk hb
  have hlt : b < (List.range c.blocks.size).length := by
    rw [List.length_range]
    exact lt_size hold
  have hmarked := hall.body b blk hb hkind
  rw [if_pos hlt] at hmarked
  refine ⟨⟨symbols, hold⟩, ?_⟩
  rw [← hmarked]
  unfold bodyOf
  rw [List.map_filterMap, List.map_filterMap]
  refine List.filterMap_congr fun id _ => ?_
  rw [← Array.getElem?_map, ← Array.getElem?_map, hstore]

variable {Q : Instr → Prop} {words : Array Word}

theorem Flow.Laid.nodup_body (h : Laid Q words c) (hb : c.blocks[b]? = some blk)
    (hkind : blk.kind = .basic) : blk.body.toList.Nodup := by
  refine List.pairwise_iff_getElem.mpr ?_
  intro k k' hk hk' hlt heq
  have hid := List.getElem?_eq_getElem hk
  have hid' := List.getElem?_eq_getElem hk'
  rw [← heq] at hid'
  rw [Array.getElem?_toList] at hid hid'
  obtain ⟨i, hi, hstands, _⟩ := (h.holds b blk hb hkind).instr k _ hid
  obtain ⟨i', hi', hstands', _⟩ := (h.holds b blk hb hkind).instr k' _ hid'
  rw [hi] at hi'
  cases hi'
  have hpos := hstands.position.symm.trans hstands'.position
  have heq' := Option.some.inj hpos
  omega

theorem Flow.Laid.index_eq (h : Laid Q words c) (hb : c.blocks[b]? = some blk)
    (hkind : blk.kind = .basic) {id k m : Nat} (hk : blk.body[k]? = some id)
    (hm : blk.body[m]? = some id) : m = k := by
  have hlt := lt_size hm
  rw [← Array.getElem?_toList] at hk hm
  exact (List.getElem?_inj (by simpa using hlt) (h.nodup_body hb hkind)).mp (hm.trans hk.symm)

theorem Flow.Laid.unwalked (hc : Laid Instr.Unmarked words c) (hd : Relabelled c d)
    (hstore : d.store = c.store) : Unwalked d := by
  have hlaid := hd.laid hc
  refine ⟨hlaid.closed, fun b blk => hlaid.nodup_body, ?_, ?_⟩
  · intro b b' blk blk' id hb hb' hkind hkind' hid hid'
    exact hlaid.unique_block hb hb' hkind hkind' hid hid'
  intro b blk hblk hkind a ha
  obtain ⟨old, hold, hbare⟩ := hd.block hblk
  obtain ⟨hsame, _, _, hbody, _⟩ := Block.of_bare hbare
  obtain ⟨id, hid, hi⟩ := List.mem_filterMap.mp ha
  rw [hstore] at hi
  rw [← hbody, Array.mem_toList_iff] at hid
  obtain ⟨k, hk⟩ := Array.mem_iff_getElem?.mp hid
  obtain ⟨i, hi', _, hfresh⟩ := (hc.holds b old hold (hsame.trans hkind)).instr k id hk
  obtain rfl := Option.mem_unique hi hi'
  exact hfresh

theorem nextUses_of_analyse (hc : Laid Instr.Unmarked words c) (h : Runs Liveness.analyse c u d)
    (hb : d.blocks[b]? = some blk) (hkind : blk.kind = .basic) : NextUses d blk := by
  obtain ⟨_, c₁, hacross, h⟩ := runs_bind.mp h
  have hc₁ := hc.unwalked (keeps_acrossBlocks.runs hacross (Relabelled.refl c))
    (keeps_acrossBlocks_store.runs hacross rfl)
  obtain ⟨⟨symbols, hold⟩, hmarked⟩ := runs_insideBlocks hc₁ h hb hkind
  have hplain := hc₁.plain b _ hold hkind
  exact ⟨c₁.bodyOf blk, hplain, hmarked⟩

theorem Optimize.Prepared.nextUses {fresh marked : Compilation}
    (h : Prepared words fresh marked c) (hb : c.blocks[b]? = some blk) (hkind : blk.kind = .basic) :
    NextUses c blk := by
  obtain ⟨_, hc⟩ := h.rewritten
  have hstore : c.store = marked.store := by rw [hc.rest]
  have hblocks : c.blocks = marked.blocks := by rw [hc.rest]
  rw [hblocks] at hb
  obtain ⟨plain, hfresh, hplain⟩ := nextUses_of_analyse h.laid h.liveness hb hkind
  refine ⟨plain, hfresh, ?_⟩
  unfold bodyOf
  rwa [hstore]

end BpfLanes
