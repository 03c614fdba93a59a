import BpfLanes.Proofs.InPlaceBlocks
import BpfLanes.Proofs.LoopRejection
import BpfLanes.Proofs.PairFusion

/-! # What replacements do to a program

When an instruction is dropped, the walk along the uses of its value looks at the
records of the blocks only. No replacement changes these, so a walk goes the same way
whenever it is repeated. It drops nothing, or it drops what it started from, and it
drops nothing that is not to be replaced itself.
-/

namespace BpfLanes

open Compilation BpfLanes.Flow Optimize
open Peephole (Entry Group)

variable {words : Array Word} {blk : Block} {c d s t : Compilation} {f : Fields} {p r : Int}
  {os : List Operand} {k q fuel : Nat} {o : Operand} {i : Instr} {next : Option Int}
  {group : Group} {e : Entry} {u : Unit} {word : Word} {text : String}
  {pending : List (Option Int)} {x y : Option Int × List (Option Int)}

/-! ## Instructions that read a register twice -/

/-- The second of two reads of one register is its own next use. -/
def Instr.RereadsItself (i : Instr) : Prop :=
  ∀ x y, i.inputs = [x, y] → x.register = y.register → y.nextUse = i.position

theorem NextUses.rereadsItself {a : Instr} (h : NextUses c blk) (ha : (c.bodyOf blk)[k]? = some a) :
    a.RereadsItself := by
  obtain ⟨plain, _, hsame⟩ := h
  obtain ⟨a₀, _, hbare, hmarked⟩ := NextUses.marked hsame ha
  intro x y hin heq
  obtain ⟨_, _, hpos, _, hregs, _⟩ := Instr.of_bare hbare
  have hfield := congrArg Instr.inputs hmarked
  change a.inputs = (Liveness.markInputs _ _ _ a₀.inputs).2 at hfield
  rw [hin] at hfield hregs
  match hin₀ : a₀.inputs with
  | [] | [_] | _ :: _ :: _ :: _ => simp [hin₀] at hregs
  | [x₀, y₀] =>
    simp only [hin₀, List.map_cons, List.map_nil, List.cons.injEq, and_true] at hregs
    rw [hin₀, Liveness.markInputs_cons, Liveness.markInputs_cons] at hfield
    simp only [List.cons.injEq] at hfield
    rw [hfield.2.1, Liveness.markInput_snd_of_lookup (by
      rw [Liveness.markInput_fst, Symbols.lookup_put, if_pos]
      rw [hregs.1, hregs.2, heq]), hpos]

theorem Fields.inputs_eq_of_twice (h : ¬ f.inputs.count r ≤ 1) : f.inputs = [r, r] := by
  unfold inputs at h ⊢
  split_ifs at h ⊢ <;> grind

theorem Fields.inputs_of_not_readsBoth (h : Opcode.readsBoth.contains f.opcode = false) :
    f.inputs.Nodup := by
  unfold inputs
  split_ifs <;> simp_all

/-! ## Records that can be looked up -/

/-- The blocks, their instructions and the schedule are those of `s`. -/
structure SameRecords (s c : Compilation) : Prop where
  store : c.store = s.store
  blocks : c.blocks = s.blocks
  schedule : c.schedule = s.schedule

namespace SameRecords

theorem trans (h : SameRecords s t) (h' : SameRecords t c) : SameRecords s c :=
  ⟨h'.store.trans h.store, h'.blocks.trans h.blocks, h'.schedule.trans h.schedule⟩

theorem of_rewritten {source : Array Word} (h : Rewritten source s c) : SameRecords s c := by
  rw [h.rest]
  exact ⟨rfl, rfl, rfl⟩

theorem bodyOf (h : SameRecords s c) (blk : Block) : c.bodyOf blk = s.bodyOf blk := by
  unfold Compilation.bodyOf
  rw [h.store]

theorem runs_instrOf (h : SameRecords s c) :
    Runs (instrOf p) c i d ↔ Located s p i ∧ d = c := by
  rw [BpfLanes.runs_instrOf]
  simp only [Located, h.bodyOf, h.store, h.blocks, h.schedule]

end SameRecords

/-- The blocks hold the instructions of a program, with their next uses. -/
structure Readable (words : Array Word) (c : Compilation) : Prop where
  laid : Laid (fun _ => True) words c
  basic : ∀ (b : Nat) (blk : Block), c.blocks[b]? = some blk → blk.kind = .basic ∨ blk.body = #[]
  uses : ∀ (b : Nat) (blk : Block), c.blocks[b]? = some blk → blk.kind = .basic → NextUses c blk

namespace Readable

theorem index (h : Readable words c) {b id : Nat} (hb : c.blocks[b]? = some blk)
    (hid : blk.body[k]? = some id) (hi : c.store[id]? = some i) :
    (c.bodyOf blk)[k]? = some i ∧ i.StandsFor words (blk.start.toNat + k) ∧ i.RereadsItself := by
  rcases h.basic b blk hb with hkind | hempty
  · have hbody : (c.bodyOf blk)[k]? = some i := by
      rwa [h.laid.bodyOf_getElem? hb hkind, hid]
    obtain ⟨j, hj, hstands, _⟩ := (h.laid.holds b blk hb hkind).instr k id hid
    obtain rfl := Option.mem_unique hi hj
    exact ⟨hbody, hstands, (h.uses b blk hb hkind).rereadsItself hbody⟩
  · simp [hempty] at hid

theorem located (h : Readable words s) (hi : Located s p i) :
    ∃ q : Nat, p = q ∧ i.StandsFor words q ∧ i.RereadsItself := by
  obtain ⟨_, b, blk, n, _, _, hblk, hn, id, hid, hi⟩ := hi
  obtain ⟨b', _, hb'⟩ := Position.get_eq_ok_iff.mp hblk
  obtain ⟨hbody, hstands, hself⟩ := h.index hb' (Position.get_natCast.mp hid) hi
  obtain ⟨hlt, hpos, _⟩ := List.findIdx?_eq_some_iff_getElem.mp hn
  obtain ⟨_, rfl⟩ := List.getElem?_eq_some_iff.mp hbody
  exact ⟨_, Option.mem_unique (eq_of_beq hpos) hstands.position, hstands, hself⟩

theorem of_analyse {u : Compilation} {asked : Bool} {options : Options} (hs : Uncut s)
    (ht : Runs Flow.analyse s () t) (hu : Runs (onRequest asked (polish options)) t () u)
    (hc : Runs Liveness.analyse u () c) : Readable s.words c := by
  have hw := (keeps_onRequest keeps_polish).runs hu (rewritten_refl (JumpsFrom.refl _))
  have hblocks : u.blocks = t.blocks := by rw [hw.rest]
  obtain ⟨hprep, -, -⟩ := prepared_of_analyse hs ht hw hc
  refine ⟨hprep.blocks, fun b blk hblk => ?_, fun b blk => hprep.nextUses⟩
  have hlabels := (keeps_liveness hprep.laid.closed).runs hc (Relabelled.refl u)
  obtain ⟨old, hold, hbare⟩ := hlabels.block hblk
  obtain ⟨hkind, _, _, hbody, _⟩ := Block.of_bare hbare
  rw [hblocks] at hold
  rw [← hkind, ← hbody]
  exact (basic_or_unfilled hs ht (Array.mem_of_getElem? hold)).imp_right And.right

end Readable

namespace Removal

/-! ## Changes to the program -/

/-- Where the program differs from that of `s`, it was written so that `P` holds. -/
structure Changed (P : Nat → Word → String → Prop) (s c : Compilation) : Prop where
  rest : c = { s with words := c.words, texts := c.texts }
  cell : ∀ p : Nat, c.words[p]? = s.words[p]? ∧ c.texts[p]? = s.texts[p]? ∨
    ∃ word text, c.words[p]? = some word ∧ c.texts[p]? = some text ∧ P p word text

/-- An instruction that was to be replaced is dropped. -/
def Dropped (group : Group) (p : Nat) (word : Word) (text : String) : Prop :=
  (p : Int) ∈ group.ids ∧ word = Word.nop ∧ text = "NOP"

namespace Changed

variable {P Q : Nat → Word → String → Prop}

theorem refl (c : Compilation) : Changed P c c := ⟨rfl, fun _ => .inl ⟨rfl, rfl⟩⟩

theorem mono (h : Changed P s c) (hpq : ∀ p word text, P p word text → Q p word text) :
    Changed Q s c := by
  refine ⟨h.rest, fun p => (h.cell p).imp_right ?_⟩
  rintro ⟨word, text, hword, htext, hp⟩
  exact ⟨word, text, hword, htext, hpq p word text hp⟩

theorem trans (h : Changed P s t) (h' : Changed P t c) : Changed P s c := by
  refine ⟨?_, fun p => ?_⟩
  · rw [h'.rest, h.rest]
  · rcases h'.cell p with ⟨hword, htext⟩ | hnew
    · rw [hword, htext]
      exact h.cell p
    · exact .inr hnew

theorem records (h : Changed P s c) : SameRecords s c := by
  rw [h.rest]
  exact ⟨rfl, rfl, rfl⟩

theorem nop (h : Changed (Dropped group) s c) {p : Nat} (hp : s.words[p]? = some Word.nop) :
    c.words[p]? = some Word.nop := by
  rcases h.cell p with ⟨hword, _⟩ | ⟨word, _, hword, _, _, rfl, _⟩
  · exact hword.trans hp
  · exact hword

theorem of_setProgram (hP : P q word text)
    (h : Runs (setProgram (some (q : Int)) word text) c u d) :
    Changed P c d ∧ d.words[q]? = some word ∧ d.texts[q]? = some text := by
  obtain ⟨hwords, htexts, rfl⟩ := runs_setProgram.mp h
  have hword := Array.getElem?_setIfInBounds_self_of_lt (a := word) hwords
  have htext := Array.getElem?_setIfInBounds_self_of_lt (a := text) htexts
  refine ⟨⟨rfl, fun p => ?_⟩, hword, htext⟩
  by_cases hp : q = p
  · subst hp
    exact .inr ⟨word, text, hword, htext, hP⟩
  · exact .inl ⟨Array.getElem?_setIfInBounds_ne hp, Array.getElem?_setIfInBounds_ne hp⟩

end Changed

/-- All that is still to be dropped belongs to the group. -/
def AllMarked (group : Group) (pending : List (Option Int)) : Prop :=
  ∀ x ∈ pending, ∃ q : Nat, x = some (q : Int) ∧ (q : Int) ∈ group.ids

/-- All of these instructions do nothing. -/
def AllDropped (pending : List (Option Int)) (c : Compilation) : Prop :=
  ∀ q : Nat, some (q : Int) ∈ pending → c.words[q]? = some Word.nop

theorem changed_of_drop (hpending : AllMarked group pending) (h : Runs (drop pending) c u d) :
    Changed (Dropped group) c d ∧ AllDropped pending d := by
  induction pending generalizing c with
  | nil =>
    obtain ⟨_, rfl⟩ := runs_pure.mp h
    exact ⟨.refl _, nofun⟩
  | cons x pending ih =>
    obtain ⟨q, rfl, hq⟩ := hpending x List.mem_cons_self
    obtain ⟨_, c₁, hx, hdrop⟩ := runs_bind.mp h
    obtain ⟨hset, hword, _⟩ := Changed.of_setProgram (P := Dropped group) ⟨hq, rfl, rfl⟩ hx
    obtain ⟨hrest, hdropped⟩ := ih (fun y hy => hpending y (List.mem_cons_of_mem _ hy)) hdrop
    refine ⟨hset.trans hrest, fun q' hq' => ?_⟩
    rcases List.mem_cons.mp hq' with heq | hq'
    · obtain rfl := Int.ofNat.inj (Option.some.inj heq)
      exact hrest.nop hword
    · exact hdropped q' hq'

theorem sameRecords_of_drop (h : Runs (drop pending) c u d) : SameRecords c d :=
  .of_rewritten (keeps_drop.runs h (rewritten_refl (JumpsFrom.refl c.words)))

/-! ## Following a value -/

/-- Runs without an effect, whatever the program has become. -/
def Idles (s : Compilation) (m : CompileM Unit) : Prop := ∀ c, SameRecords s c → Runs m c () c

theorem runs_followInput : Runs (followInput r (next, pending) o) c x d ↔
    if o.register = r then x = (o.nextUse, pending ++ [next]) ∧
      (if o.nextUse = none then Runs (drop (pending ++ [next])) c () d else d = c)
    else x = (next, pending) ∧ d = c := by
  unfold followInput
  simp only [beq_iff_eq, Option.isNone_iff_eq_none]
  split_ifs
  · constructor
    · intro h
      obtain ⟨_, c₁, hdrop, hx⟩ := runs_bind.mp h
      obtain ⟨rfl, rfl⟩ := runs_pure.mp hx
      exact ⟨rfl, hdrop⟩
    · rintro ⟨rfl, hdrop⟩
      exact runs_bind.mpr ⟨_, d, hdrop, runs_pure.mpr ⟨rfl, rfl⟩⟩
  · exact runs_pure
  · exact runs_pure

theorem runs_followInput_read (ho : o.register = r) (h : Runs (followInput r y o) c x d) :
    x.1 = o.nextUse ∧ SameRecords c d := by
  have hstep := runs_followInput.mp h
  rw [if_pos ho] at hstep
  obtain ⟨rfl, hdrop⟩ := hstep
  split at hdrop
  · exact ⟨rfl, sameRecords_of_drop hdrop⟩
  · subst hdrop
    exact ⟨rfl, rfl, rfl, rfl⟩

theorem runs_followInputs_other (hos : ∀ o ∈ os, o.register ≠ r) :
    Runs (os.foldlM (followInput r) y) c x d ↔ x = y ∧ d = c := by
  induction os generalizing y c with
  | nil => exact runs_pure
  | cons o os ih =>
    have hstep : ∀ z c₁, Runs (followInput r y o) c z c₁ ↔ z = y ∧ c₁ = c := by
      intro z c₁
      rw [runs_followInput, if_neg (hos o List.mem_cons_self)]
    have hrest := fun o' ho' => hos o' (List.mem_cons_of_mem o ho')
    rw [List.foldlM_cons, runs_bind]
    simp only [hstep, ih hrest]
    constructor
    · rintro ⟨_, _, ⟨rfl, rfl⟩, rfl, rfl⟩
      exact ⟨rfl, rfl⟩
    · rintro ⟨rfl, rfl⟩
      exact ⟨_, _, ⟨rfl, rfl⟩, rfl, rfl⟩

theorem followInputs_spec (hq : (q : Int) ∈ group.ids) (hpending : AllMarked group pending)
    (honce : (os.map Operand.register).count r ≤ 1)
    (h : Runs (os.foldlM (followInput r) (some (q : Int), pending)) c x d) :
    Changed (Dropped group) c d ∧ AllMarked group x.2 ∧ pending ⊆ x.2 ∧ (AllDropped pending d ∨
      ∀ c, Runs (os.foldlM (followInput r) (some (q : Int), pending)) c x c) := by
  induction os generalizing c with
  | nil =>
    obtain ⟨rfl, rfl⟩ := runs_pure.mp h
    exact ⟨.refl _, hpending, fun _ hy => hy, Or.inr fun c => runs_pure.mpr ⟨rfl, rfl⟩⟩
  | cons o os ih =>
    obtain ⟨z, c₁, hstep, hrest⟩ := runs_bind.mp h
    have hz := runs_followInput.mp hstep
    split at hz
    · next hr =>
      have hothers : ∀ o' ∈ os, o'.register ≠ r := by simpa [hr, List.count_eq_zero] using honce
      obtain ⟨rfl, rfl⟩ := (runs_followInputs_other hothers).mp hrest
      have hall : AllMarked group (pending ++ [some (q : Int)]) :=
        List.forall_mem_append.mpr ⟨hpending, List.forall_mem_singleton.mpr ⟨q, rfl, hq⟩⟩
      obtain ⟨rfl, hdrop⟩ := hz
      split at hdrop
      · obtain ⟨hchanged, hdropped⟩ := changed_of_drop hall hdrop
        exact ⟨hchanged, hall, List.subset_append_left _ _,
          Or.inl fun p hp => hdropped p (List.mem_append_left _ hp)⟩
      · next hlater =>
        subst hdrop
        refine ⟨.refl _, hall, List.subset_append_left _ _, Or.inr fun c => ?_⟩
        refine runs_bind.mpr ⟨_, c, runs_followInput.mpr ?_,
          (runs_followInputs_other hothers).mpr ⟨rfl, rfl⟩⟩
        rw [if_pos hr, if_neg hlater]
        exact ⟨rfl, rfl⟩
    · next hr =>
      obtain ⟨rfl, rfl⟩ := hz
      obtain ⟨hchanged, hall, hsub, hdone⟩ :=
        ih (by simpa [hr, List.count_cons] using honce) hrest
      refine ⟨hchanged, hall, hsub, hdone.imp_right fun hidle c => ?_⟩
      exact runs_bind.mpr ⟨_, c, runs_followInput.mpr (by rw [if_neg hr]; exact ⟨rfl, rfl⟩), hidle c⟩

theorem isSome_find? : (group.find? p).isSome = true ↔ p ∈ group.ids := by
  unfold Group.find? Group.ids
  rw [List.find?_isSome, List.mem_map]
  exact exists_congr fun e => and_congr_right fun _ => beq_iff_eq

section
variable (hs : Readable words s)
include hs

theorem runs_follow_step (hc : SameRecords s c) :
    Runs (follow group r (fuel + 1) (some p) pending) c u d ↔
      ∃ i, Located s p i ∧ if p ∈ group.ids then ∃ x c₁ f,
        Runs (i.inputs.foldlM (followInput r) (some p, pending)) c x c₁
        ∧ Fields.decode i.word = .ok f
        ∧ Runs (if i.writes r || f.isCall then drop x.2 else follow group r fuel x.1 x.2) c₁ u d
      else d = c := by
  have htest : ∀ i, Located s p i →
      ((!i.position.any fun q => (group.find? q).isSome) = true ↔ p ∉ group.ids) := by
    intro i hi
    obtain ⟨q, rfl, hstands, _⟩ := hs.located hi
    rw [hstands.position, Option.any_some, Bool.not_eq_true', ← Bool.not_eq_true, isSome_find?]
  conv_lhs => unfold follow
  rw [runs_bind]
  constructor
  · rintro ⟨i, _, hrun, h⟩
    obtain ⟨hi, rfl⟩ := hc.runs_instrOf.mp hrun
    refine ⟨i, hi, ?_⟩
    split at h
    · next hnot =>
      rw [if_neg ((htest i hi).mp hnot)]
      exact (runs_pure.mp h).2
    · next hin =>
      obtain ⟨x, c₁, hx, h⟩ := runs_bind.mp h
      obtain ⟨f, hf, h⟩ := runs_fieldsOf_bind.mp h
      rw [if_pos (not_not.mp fun hnot => hin ((htest i hi).mpr hnot))]
      exact ⟨x, c₁, f, hx, hf, h⟩
  · rintro ⟨i, hi, h⟩
    refine ⟨i, c, hc.runs_instrOf.mpr ⟨hi, rfl⟩, ?_⟩
    split at h
    · next hin =>
      obtain ⟨x, c₁, f, hx, hf, h⟩ := h
      rw [if_neg fun hnot => (htest i hi).mp hnot hin]
      exact runs_bind.mpr ⟨x, c₁, hx, runs_fieldsOf_bind.mpr ⟨f, hf, h⟩⟩
    · next hnot =>
      rw [if_pos ((htest i hi).mpr hnot)]
      exact runs_pure.mpr ⟨rfl, h⟩

/-- What is to be replaced reads no register twice, or sets none. -/
def ReadsOnce (words : Array Word) (group : Group) : Prop :=
  ∀ (q : Nat) (f : Fields), (q : Int) ∈ group.ids → WordAt words q f →
    f.inputs.Nodup ∨ f.output? = none ∧ f.isCall = false

theorem not_runs_follow (hw : WordAt words q f) (hinputs : f.inputs = [r, r])
    (houtput : f.output? = none) (hcall : f.isCall = false) (hq : (q : Int) ∈ group.ids)
    (hc : SameRecords s c) :
    ¬ Runs (follow group r fuel (some (q : Int)) pending) c u d := by
  induction fuel generalizing c pending with
  | zero => exact runs_throw
  | succ fuel ih =>
    intro h
    obtain ⟨i, hi, h⟩ := (runs_follow_step hs hc).mp h
    rw [if_pos hq] at h
    obtain ⟨x, c₁, f', hx, hf', hrest⟩ := h
    obtain ⟨q', hq', hstands, hself⟩ := hs.located hi
    obtain rfl := Int.ofNat.inj hq'
    obtain rfl := hw.unique ⟨_, hstands.word, hf'⟩
    obtain ⟨f', hf, hregs, hout⟩ := hstands.operands
    obtain rfl := Except.ok.inj (hf'.symm.trans hf)
    obtain ⟨o, o', hin, ho, ho'⟩ :
        ∃ o o', i.inputs = [o, o'] ∧ o.register = r ∧ o'.register = r := by
      simpa [hinputs, List.map_eq_cons_iff] using hregs
    rw [hin] at hx
    obtain ⟨y, c₂, hy, hx⟩ := runs_bind.mp hx
    obtain ⟨z, c₃, hz, hx⟩ := runs_bind.mp hx
    obtain ⟨rfl, rfl⟩ := runs_pure.mp hx
    obtain ⟨_, hc₂⟩ := runs_followInput_read ho hy
    obtain ⟨hnext, hc₃⟩ := runs_followInput_read ho' hz
    rw [hself o o' hin (ho.trans ho'.symm), hstands.position] at hnext
    have hwrites : i.writes r = false := by
      rw [houtput, ite_self, Option.map_eq_none_iff] at hout
      simp [Instr.writes, hout]
    rw [hwrites, hcall, if_neg (by decide), hnext] at hrest
    exact ih ((hc.trans hc₂).trans hc₃) hrest

variable (honce : ReadsOnce words group)
include honce

theorem follow_spec (hpending : AllMarked group pending) (hc : SameRecords s c)
    (h : Runs (follow group r fuel next pending) c u d) :
    Changed (Dropped group) c d ∧
      (AllDropped pending d ∨ Idles s (follow group r fuel next pending)) := by
  induction fuel generalizing next pending c with
  | zero =>
    cases next with
    | none =>
      obtain ⟨_, rfl⟩ := runs_pure.mp h
      exact ⟨.refl _, .inr fun c _ => runs_pure.mpr ⟨rfl, rfl⟩⟩
    | some p => exact absurd h runs_throw
  | succ fuel ih =>
    cases next with
    | none =>
      obtain ⟨_, rfl⟩ := runs_pure.mp h
      exact ⟨.refl _, .inr fun c _ => runs_pure.mpr ⟨rfl, rfl⟩⟩
    | some p =>
      obtain ⟨i, hi, hstep⟩ := (runs_follow_step hs hc).mp h
      split at hstep
      · next hp =>
        obtain ⟨x, c₁, f, hx, hf, hrest⟩ := hstep
        obtain ⟨q, rfl, hstands, _⟩ := hs.located hi
        have hw : WordAt words q f := ⟨_, hstands.word, hf⟩
        by_cases hreads : (i.inputs.map Operand.register).count r ≤ 1
        · obtain ⟨hchanged, hall, hsub, hdone⟩ := followInputs_spec hp hpending hreads hx
          have hlast : Changed (Dropped group) c₁ d ∧ (AllDropped x.2 d ∨ Idles s
              (if i.writes r || f.isCall then drop x.2 else follow group r fuel x.1 x.2)) := by
            split at hrest
            · next hend =>
              rw [if_pos hend]
              exact (changed_of_drop hall hrest).imp_right .inl
            · next hend =>
              rw [if_neg hend]
              exact ih hall (hc.trans hchanged.records) hrest
          refine ⟨hchanged.trans hlast.1, ?_⟩
          rcases hdone with hdone | hidle
          · exact .inl fun p hp => hlast.1.nop (hdone p hp)
          · refine hlast.2.imp (fun hdone p hp => hdone p (hsub hp)) fun hrest c hc => ?_
            refine (runs_follow_step hs hc).mpr ⟨i, hi, ?_⟩
            rw [if_pos hp]
            exact ⟨x, c, f, hidle c, hf, hrest c hc⟩
        · -- then the instruction compares the register with itself, and the walk never ends
          obtain ⟨f', hf', hregs, _⟩ := hstands.operands
          obtain rfl := Except.ok.inj (hf.symm.trans hf')
          rw [hregs] at hreads
          have hinputs := Fields.inputs_eq_of_twice hreads
          obtain ⟨hout, hcall⟩ := (honce q f hp hw).resolve_left (by simp [hinputs])
          exact absurd h (not_runs_follow hs hw hinputs hout hcall hp hc)
      · next hp =>
        subst hstep
        refine ⟨.refl _, .inr fun c hc => (runs_follow_step hs hc).mpr ⟨i, hi, ?_⟩⟩
        rw [if_neg hp]

/-! ## One replacement -/

/-- What comes after an instruction was replaced. -/
def follows (group : Group) (e : Entry) (i : Instr) : CompileM Unit := do
  if e.text == "NOP" then
    match i.output with
    | some o => follow group o.register (2 * (← get).store.size + 2) o.nextUse [some e.id]
    | none => pure ()

theorem follows_spec (he : e ∈ group) (hq : e.id = q) (hc : SameRecords s c)
    (h : Runs (follows group e i) c u d) :
    Changed (Dropped group) c d ∧ (d.words[q]? = some Word.nop ∨ Idles s (follows group e i)) := by
  have hstay : Runs (pure () : CompileM Unit) c u d →
      Changed (Dropped group) c d ∧ Idles s (pure ()) := by
    intro h
    obtain ⟨_, rfl⟩ := runs_pure.mp h
    exact ⟨.refl _, fun _ _ => runs_pure.mpr ⟨rfl, rfl⟩⟩
  unfold follows at h ⊢
  split at h
  · next htext =>
    rw [if_pos htext]
    split at h
    · rw [runs_get_bind, hc.store] at h
      have hpending : AllMarked group [some e.id] := by
        intro x hx
        exact ⟨q, hq ▸ List.mem_singleton.mp hx, hq ▸ List.mem_map_of_mem he⟩
      obtain ⟨hchanged, hdone⟩ := follow_spec hs honce hpending hc h
      refine ⟨hchanged, hdone.imp (fun hdone => hdone q (hq ▸ List.mem_singleton_self _)) ?_⟩
      intro hidle c hc
      rw [runs_get_bind, hc.store]
      exact hidle c hc
    · exact (hstay h).imp_right .inr
  · next htext =>
    rw [if_neg htext]
    exact (hstay h).imp_right .inr

end

theorem runs_apply (hq : e.id = q) (hc : SameRecords s c) : Runs (apply group e) c u d ↔
    ∃ word, c.words[q]? = some word ∧ if word = Word.nop then d = c else
      ∃ f, Fields.decode word = .ok f ∧ if f.isBranch then
        Runs (setProgram (some (q : Int)) e.word e.text) c u d
      else ∃ i c₁, Located s q i ∧ Runs (setProgram (some (q : Int)) e.word e.text) c () c₁ ∧
        Runs (follows group e i) c₁ u d := by
  unfold apply follows
  rw [hq, runs_get_bind, runs_lift_bind]
  simp only [Position.get_natCast]
  refine exists_congr fun word => and_congr_right fun _ => ?_
  by_cases hnop : word = Word.nop
  · rw [if_pos (beq_iff_eq.mpr hnop), if_pos hnop, runs_pure]
    exact and_iff_right rfl
  rw [if_neg (by simpa using hnop), if_neg hnop, runs_lift_bind]
  refine exists_congr fun f => and_congr_right fun _ => ?_
  by_cases hbranch : f.isBranch = true
  · rw [if_pos hbranch, if_pos hbranch]
  rw [if_neg hbranch, if_neg hbranch, runs_bind]
  constructor
  · rintro ⟨i, _, hrun, h⟩
    obtain ⟨hi, rfl⟩ := hc.runs_instrOf.mp hrun
    obtain ⟨_, c₁, hset, h⟩ := runs_bind.mp h
    exact ⟨i, c₁, hi, hset, h⟩
  · rintro ⟨i, c₁, hi, hset, h⟩
    exact ⟨i, c, hc.runs_instrOf.mpr ⟨hi, rfl⟩, runs_bind.mpr ⟨_, c₁, hset, h⟩⟩

/-- What was written for an entry, or dropped on the way. -/
def Written (group es : Group) (p : Nat) (word : Word) (text : String) : Prop :=
  Dropped group p word text ∨ ∃ e ∈ es, e.id = p ∧ word = e.word ∧ text = e.text

/-- A replacement has been made: the instruction is gone, or what it is replaced by is in
    its place and nothing was dropped with it. -/
inductive Settled (s : Compilation) (group : Group) (e : Entry) (q : Nat) (c : Compilation) : Prop
  | dropped (h : c.words[q]? = some Word.nop)
  | written (hword : c.words[q]? = some e.word) (htext : c.texts[q]? = some e.text) (i : Instr)
      (hi : Located s q i) (hidle : Idles s (follows group e i))

theorem apply_spec (hs : Readable words s) (honce : ReadsOnce words group) (he : e ∈ group)
    (hq : e.id = q) (hc : SameRecords s c)
    (hplain : ∀ f, WordAt c.words q f → f.isBranch = true → e.word = Word.nop)
    (h : Runs (apply group e) c u d) :
    Changed (Written group [e]) c d ∧ Settled s group e q d := by
  have hown : Written group [e] q e.word e.text :=
    .inr ⟨e, List.mem_singleton_self e, hq, rfl, rfl⟩
  obtain ⟨word, hword, h⟩ := (runs_apply hq hc).mp h
  split at h
  · next hnop =>
    subst h
    exact ⟨.refl _, .dropped (hnop ▸ hword)⟩
  obtain ⟨f, hf, h⟩ := h
  split at h
  · next hbranch =>
    obtain ⟨hchanged, hnew, _⟩ := Changed.of_setProgram hown h
    exact ⟨hchanged, .dropped (hplain f ⟨word, hword, hf⟩ hbranch ▸ hnew)⟩
  · obtain ⟨i, c₁, hi, hset, h⟩ := h
    obtain ⟨hchanged, hnew, hnewText⟩ := Changed.of_setProgram hown hset
    obtain ⟨hrest, hdone⟩ := follows_spec hs honce he hq (hc.trans hchanged.records) h
    refine ⟨hchanged.trans (hrest.mono fun _ _ _ => .inl), ?_⟩
    rcases hdone with hdone | hidle
    · exact .dropped hdone
    rcases hrest.cell q with ⟨hkeep, hkeepText⟩ | ⟨_, _, hdrop, _, _, rfl, _⟩
    · exact .written (hkeep.trans hnew) (hkeepText.trans hnewText) i hi hidle
    · exact .dropped hdrop

theorem setIfInBounds_self {α : Type} {xs : Array α} {a : α} (h : xs[q]? = some a) :
    xs.setIfInBounds q a = xs := by
  obtain ⟨hlt, rfl⟩ := Array.getElem?_eq_some_iff.mp h
  rw [Array.setIfInBounds, dif_pos hlt, Array.set_getElem_self]

theorem Settled.again (h : Settled s group e q c) (hq : e.id = q) (hc : SameRecords s c)
    (hstraight : Word.Straight e.word) : Runs (apply group e) c () c := by
  rw [runs_apply hq hc]
  cases h with
  | dropped h => exact ⟨_, h, by rw [if_pos rfl]⟩
  | written hword htext i hi hidle =>
    refine ⟨_, hword, ?_⟩
    split
    · rfl
    obtain ⟨f, hf, hbranch⟩ := hstraight
    refine ⟨f, hf, ?_⟩
    rw [hbranch, if_neg (by decide)]
    refine ⟨i, c, hi, runs_setProgram.mpr ⟨lt_size hword, lt_size htext, ?_⟩, hidle c hc⟩
    rw [setIfInBounds_self hword, setIfInBounds_self htext]

end Removal
end BpfLanes
