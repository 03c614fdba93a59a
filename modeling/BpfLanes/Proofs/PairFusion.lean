import BpfLanes.Proofs.BlockParse
import BpfLanes.Proofs.Passes

/-! # Pairs of neighbours that are fused

Both fusions walk over the neighbours of a block as they were parsed and rewrite
the program where two of them form a pair. Pairs never overlap, not even pairs of
different kinds: what can stand first in a pair never stands second in one. So a
pass rewrites exactly the pairs of its kind in its block, and whatever was fused
before, a pair still stands in the program as it did at first, or fused.
-/

namespace BpfLanes

open Compilation BpfLanes.Flow
open Word (Proper unpacked)

variable {source : Array Word} {s t : Compilation} {f : Fields} {o r : Int} {p q : Nat} {u : Unit}
  {w w' : Word}

/-! ## Instructions that are fused -/

theorem Opcode.emod_of_fused? {o' : Int} (h : Opcode.fused? o = some o') : o' % 2 ^ 8 = o' := by
  have hall : ∀ e ∈ Opcode.fusedForms, e.2 % 2 ^ 8 = e.2 := by decide
  exact hall _ (Fields.mem_of_lookup h)

namespace Fields

theorem isFusible_iff : f.isFusible = true ↔
    ∃ o, Opcode.fused? f.opcode = some o ∧ (f.opcode, o) ∈ Opcode.fusedForms := by
  unfold isFusible
  rw [Option.isSome_iff_exists]
  exact ⟨fun ⟨o, ho⟩ => ⟨o, ho, mem_of_lookup ho⟩, fun ⟨o, ho, _⟩ => ⟨o, ho⟩⟩

theorem operands_of_isFusible (h : f.isFusible = true) :
    f.isArithmetic = true ∧ f.isNop = false ∧ f.inputs = [f.dst]
      ∧ Opcode.writesNothing.contains f.opcode = false := by
  obtain ⟨o, _, ho⟩ := isFusible_iff.mp h
  have hall : ∀ e ∈ Opcode.fusedForms, Opcode.arithmetic.contains e.1 = true
      ∧ (e.1 == Opcode.nop) = false ∧ Opcode.readsSource.contains e.1 = false
      ∧ Opcode.readsTarget.contains e.1 = true
      ∧ Opcode.writesNothing.contains e.1 = false := by decide
  obtain ⟨harith, hnop, hsource, htarget, hwrites⟩ := hall _ ho
  exact ⟨harith, hnop, inputs_of_target (by rw [hsource]; decide) htarget, hwrites⟩

theorem operands_of_isMove (h : f.isMove = true) :
    f.isNop = false ∧ f.inputs = [f.src] ∧ Opcode.writesNothing.contains f.opcode = false := by
  have hopcode : f.opcode = Opcode.move := by simpa [isMove] using h
  rw [isNop, hopcode]
  exact ⟨by decide, inputs_of_source (by rw [hopcode]; decide), by decide⟩

theorem decode_retagged (hf : f.reduced = f) (ho : o % 2 ^ 8 = o) (hr : r % 2 ^ 4 = r) :
    decode { f with opcode := o, src := r }.encode =
      .ok { f with opcode := o, src := r } := by
  have hdst : f.dst % 2 ^ 4 = f.dst := congrArg Fields.dst hf
  have hoffset : f.offset.bmod (2 ^ 16) = f.offset := congrArg Fields.offset hf
  have himmediate : f.immediate % 2 ^ 32 = f.immediate := congrArg Fields.immediate hf
  rw [decode_encode, reduced]
  dsimp only
  rw [ho, hr, hdst, hoffset, himmediate]

end Fields

theorem Word.setOpcode_setSource (hw : Proper w) (hr : r % 2 ^ 4 = r) (ho : o % 2 ^ 8 = o)
    (h : w.setSource r = .ok w') : Fields.decode w' = .ok { unpacked w with src := r }
      ∧ w'.setOpcode o = { unpacked w with opcode := o, src := r }.encode := by
  obtain ⟨_, hproper, hfields⟩ := (Field.edit_eq_ok_iff (k := .source) hw).mp h
  have hfields' : unpacked w' = { unpacked w with src := r } := by
    rw [hfields]
    show { unpacked w with src := r % 2 ^ 4 } = _
    rw [hr]
  refine ⟨Word.decode_eq_ok_iff.mpr ⟨hproper, hfields'.symm⟩, ?_⟩
  have hedit : Field.opcode.edit o w' = .ok (w'.setOpcode o) := rfl
  obtain ⟨_, hproper', hset⟩ := (Field.edit_eq_ok_iff hproper).mp hedit
  rw [← Word.encode_unpacked hproper', hset, hfields']
  show Fields.encode { unpacked w with opcode := o % 2 ^ 8, src := r } = _
  rw [ho]

theorem Instr.StandsFor.output_eq {i : Instr} (hi : i.StandsFor source p)
    (hf : Fields.decode i.word = .ok f) (hnop : f.isNop = false)
    (hwrites : Opcode.writesNothing.contains f.opcode = false) :
    ∃ o, i.output = some o ∧ o.register = f.dst := by
  obtain ⟨g, hg, _, hout⟩ := hi.operands
  obtain rfl := Except.ok.inj (hf.symm.trans hg)
  rw [hnop, Fields.output?, hwrites] at hout
  simpa using hout

namespace Fusion

/-! ## Pairs -/

/-- The kinds of pairs: a copy with an operation in place, and a constant result with
    an exit. -/
inductive Kind where
  | moves
  | exits
  deriving DecidableEq, Repr

variable {k : Kind} {words : Array Word} {ab : Word × Word} {blk : Block} {c d : Compilation}

namespace Kind

/-- The step that fuses two neighbours. -/
def round : Kind → Instr → Instr → CompileM Unit
  | moves => fuseMove
  | exits => fuseExit

/-- The step that fuses the pairs of a block. -/
def pass : Kind → Block → CompileM Unit
  | moves => fuseMoves
  | exits => fuseExits

theorem pass_eq (k : Kind) (blk : Block) :
    k.pass blk = body blk >>= fun is => (neighbours is).forM fun x => k.round x.1 x.2 := by
  cases k with
  | moves => rfl
  | exits => rfl

/-- Whether two neighbours form a pair. -/
def joins : Kind → Fields → Fields → Bool
  | moves, f, g => f.isMove && g.isFusible && f.dst == g.dst
  | exits, f, g => f.isMoveImmediate && g.isExit

/-- The words of a fused pair. -/
def fuse : Kind → Fields → Fields → Word × Word
  | moves, f, g => (Word.nop,
      { g with opcode := (Opcode.fused? g.opcode).getD Opcode.nop, src := f.src }.encode)
  | exits, f, _ => ({ f with opcode := Opcode.moveExit, src := 0 }.encode, Word.nop)

/-- The opcode that stands first in a pair. -/
def lead : Kind → Int
  | moves => Opcode.move
  | exits => Opcode.moveImmediate

/-- The opcodes that can stand second in a pair. -/
def tails : Kind → List Int
  | moves => Opcode.fusedForms.map Prod.fst
  | exits => Opcode.exits

theorem opcodes_of_joins {g : Fields} (h : k.joins f g = true) :
    f.opcode = k.lead ∧ g.opcode ∈ k.tails := by
  cases k with
  | moves =>
    simp only [joins, Bool.and_eq_true, Fields.isMove, beq_iff_eq] at h
    obtain ⟨o, _, hmem⟩ := Fields.isFusible_iff.mp h.1.2
    exact ⟨h.1.1, List.mem_map.mpr ⟨_, hmem, rfl⟩⟩
  | exits =>
    simp only [joins, Bool.and_eq_true, Fields.isMoveImmediate, beq_iff_eq, Fields.isExit,
      List.contains_iff_mem] at h
    exact h

theorem lead_not_mem_tails (j k : Kind) : j.lead ∉ k.tails := by
  cases j <;> cases k <;> decide

theorem lead_injective {j k : Kind} (h : j.lead = k.lead) : j = k := by
  revert h
  cases j <;> cases k <;> decide

end Kind

/-- A place where a pair of a kind may stand: its first instruction is at this
    position. -/
@[ext] structure Site where
  kind : Kind
  position : Nat
  deriving DecidableEq, Repr

variable {xs ys : List Site} {x y : Site}

namespace Site

/-- The two words that the pair at a site of a program becomes, if there is one. -/
def fused? (source : Array Word) (x : Site) : Option (Word × Word) :=
  match source[x.position]?, source[x.position + 1]? with
  | some w, some w' =>
    if x.kind.joins (unpacked w) (unpacked w') then some (x.kind.fuse (unpacked w) (unpacked w'))
    else none
  | _, _ => none

/-- Writes what the pair at a site of `source` becomes. -/
def write (source : Array Word) (x : Site) (words : Array Word) : Array Word :=
  match x.fused? source with
  | some ab => (words.setIfInBounds x.position ab.1).setIfInBounds (x.position + 1) ab.2
  | none => words

/-- Position `q` belongs to the site. -/
def Covers (x : Site) (q : Nat) : Prop := q = x.position ∨ q = x.position + 1

instance (x : Site) (q : Nat) : Decidable (x.Covers q) :=
  inferInstanceAs (Decidable (_ ∨ _))

theorem fused?_eq_some_iff : x.fused? source = some ab ↔ ∃ w w', source[x.position]? = some w ∧
    source[x.position + 1]? = some w' ∧ x.kind.joins (unpacked w) (unpacked w') = true ∧
    ab = x.kind.fuse (unpacked w) (unpacked w') := by
  constructor
  · intro h
    unfold fused? at h
    split at h
    · next w w' hw hw' =>
      split at h
      · next hjoins => exact ⟨w, w', hw, hw', hjoins, (Option.some.inj h).symm⟩
      · cases h
    · cases h
  · rintro ⟨w, w', hw, hw', hjoins, rfl⟩
    unfold fused?
    rw [hw, hw']
    exact if_pos hjoins

theorem fused?_of_words (hw : source[p]? = some w) (hw' : source[p + 1]? = some w') :
    fused? source ⟨k, p⟩ =
      if k.joins (unpacked w) (unpacked w') then some (k.fuse (unpacked w) (unpacked w'))
      else none := by
  unfold fused?
  rw [hw, hw']

theorem size_write : (x.write source words).size = words.size := by
  unfold write
  split
  · simp
  · rfl

theorem write_of_none (h : x.fused? source = none) : x.write source words = words := by
  unfold write
  rw [h]

theorem write_of_some (h : x.fused? source = some ab) : x.write source words =
    (words.setIfInBounds x.position ab.1).setIfInBounds (x.position + 1) ab.2 := by
  unfold write
  rw [h]

theorem getElem?_write_of_not_covers (hq : ¬ x.Covers q) :
    (x.write source words)[q]? = words[q]? := by
  unfold Covers at hq
  unfold write
  split
  · rw [Array.getElem?_setIfInBounds_ne (by omega), Array.getElem?_setIfInBounds_ne (by omega)]
  · rfl

theorem getElem?_write (hsize : words.size = source.size) (h : x.fused? source = some ab) :
    (x.write source words)[x.position]? = some ab.1 ∧
      (x.write source words)[x.position + 1]? = some ab.2 := by
  obtain ⟨w, w', hw, hw', _⟩ := fused?_eq_some_iff.mp h
  have hlt : x.position + 1 < words.size := hsize ▸ (lt_size hw')
  rw [write_of_some h]
  constructor
  · rw [Array.getElem?_setIfInBounds_ne (by omega),
      Array.getElem?_setIfInBounds_self_of_lt (by omega)]
  · exact Array.getElem?_setIfInBounds_self_of_lt (by simpa using hlt)

theorem eq_of_covers {cd : Word × Word} (hx : x.fused? source = some ab)
    (hy : y.fused? source = some cd) (hxq : x.Covers q) (hyq : y.Covers q) : x = y := by
  obtain ⟨w, w', hw, hw', hjoins, _⟩ := fused?_eq_some_iff.mp hx
  obtain ⟨v, v', hv, hv', hjoins', _⟩ := fused?_eq_some_iff.mp hy
  obtain ⟨hlead, htail⟩ := Kind.opcodes_of_joins hjoins
  obtain ⟨hlead', htail'⟩ := Kind.opcodes_of_joins hjoins'
  -- the same position and the same first word
  have hsame : x.position = y.position → x = y := by
    intro hp
    rw [hp] at hw
    obtain rfl := Option.mem_unique hw hv
    exact Site.ext (Kind.lead_injective (hlead.symm.trans hlead')) hp
  rcases hxq with rfl | rfl
  -- otherwise the first word of one pair is the second word of the other
  · rcases hyq with hp | hp
    · exact hsame hp
    · rw [hp] at hw
      obtain rfl := Option.mem_unique hw hv'
      exact absurd (hlead ▸ htail') (Kind.lead_not_mem_tails _ _)
  · rcases hyq with hp | hp
    · rw [hp] at hw'
      obtain rfl := Option.mem_unique hw' hv
      exact absurd (hlead' ▸ htail) (Kind.lead_not_mem_tails _ _)
    · exact hsame (by omega)

end Site

/-! ## Rewriting a program -/

/-- The program after pairs are fused one by one. -/
def rewrite (source : Array Word) (sites : List Site) (words : Array Word) : Array Word :=
  sites.foldl (fun ws x => x.write source ws) words

/-- The pair at a site stands in a program as it does in `source`, or fused. -/
def Site.Stands (source words : Array Word) (x : Site) : Prop :=
  ∀ ab, x.fused? source = some ab →
    (words[x.position]? = source[x.position]? ∧ words[x.position + 1]? = source[x.position + 1]?)
      ∨ (words[x.position]? = some ab.1 ∧ words[x.position + 1]? = some ab.2)

variable {sites : List Site}

theorem rewrite_cons :
    rewrite source (x :: sites) words = rewrite source sites (x.write source words) :=
  rfl

theorem rewrite_append {more : List Site} :
    rewrite source (sites ++ more) words = rewrite source more (rewrite source sites words) :=
  List.foldl_append

theorem size_rewrite : (rewrite source sites words).size = words.size := by
  induction sites generalizing words with
  | nil => rfl
  | cons x sites ih =>
    rw [rewrite_cons, ih]
    exact Site.size_write

theorem getElem?_rewrite_of_not_covers (h : ∀ x ∈ sites, ¬ x.Covers q) :
    (rewrite source sites words)[q]? = words[q]? := by
  induction sites generalizing words with
  | nil => rfl
  | cons x sites ih =>
    rw [rewrite_cons, ih fun y hy => h y (List.mem_cons_of_mem x hy)]
    exact Site.getElem?_write_of_not_covers (h x List.mem_cons_self)

theorem Site.getElem?_write_other (hx : x.fused? source = some ab) (hxy : y ≠ x) (hq : x.Covers q) :
    (y.write source words)[q]? = words[q]? := by
  cases hy : y.fused? source with
  | none => rw [write_of_none hy]
  | some cd =>
    exact getElem?_write_of_not_covers fun hyq => hxy (eq_of_covers hy hx hyq hq)

section
variable (hsize : words.size = source.size)
include hsize

theorem Site.write_stands (h : x.Stands source words) : x.Stands source (y.write source words) := by
  intro ab hx
  by_cases hxy : y = x
  · subst hxy
    exact .inr (getElem?_write hsize hx)
  · rw [getElem?_write_other hx hxy (.inl rfl), getElem?_write_other hx hxy (.inr rfl)]
    exact h ab hx

theorem Site.rewrite_stands (h : x.Stands source words) :
    x.Stands source (rewrite source sites words) := by
  induction sites generalizing words with
  | nil => exact h
  | cons y sites ih => exact ih (size_write.trans hsize) (write_stands hsize h)

theorem getElem?_rewrite (hx : x.fused? source = some ab)
    (hmem : x ∈ sites ∨ words[x.position]? = some ab.1 ∧ words[x.position + 1]? = some ab.2) :
    (rewrite source sites words)[x.position]? = some ab.1 ∧
      (rewrite source sites words)[x.position + 1]? = some ab.2 := by
  induction sites generalizing words with
  | nil =>
    rcases hmem with hmem | hfused
    · cases hmem
    · exact hfused
  | cons y sites ih =>
    refine ih (Site.size_write.trans hsize) ?_
    by_cases hxy : y = x
    · subst hxy
      exact .inr (Site.getElem?_write hsize hx)
    · rw [Site.getElem?_write_other hx hxy (.inl rfl),
        Site.getElem?_write_other hx hxy (.inr rfl)]
      exact hmem.imp_left fun hmem => (List.mem_cons.mp hmem).resolve_left (Ne.symm hxy)

theorem rewrite_origin (hpairs : ∀ x ∈ sites, (x.fused? source).isSome = true) (q : Nat) :
    (rewrite source sites words)[q]? = words[q]? ∨
      ∃ x ∈ sites, ∃ ab, x.fused? source = some ab ∧ x.Covers q ∧
        (rewrite source sites words)[q]? = some (if q = x.position then ab.1 else ab.2) := by
  by_cases hcover : ∃ x ∈ sites, x.Covers q
  · obtain ⟨x, hx, hq⟩ := hcover
    obtain ⟨ab, hab⟩ := Option.isSome_iff_exists.mp (hpairs x hx)
    obtain ⟨hfirst, hsecond⟩ := getElem?_rewrite hsize hab (.inl hx)
    refine .inr ⟨x, hx, ab, hab, hq, ?_⟩
    rcases hq with rfl | rfl
    · rw [if_pos rfl, hfirst]
    · rw [if_neg (by omega), hsecond]
  · exact .inl (getElem?_rewrite_of_not_covers fun x hx hq => hcover ⟨x, hx, hq⟩)

end

/-! ## What a run has fused -/

/-- The sites where two neighbours form a pair. -/
def pairsAmong (source : Array Word) (sites : List Site) : List Site :=
  sites.filter fun x => (x.fused? source).isSome

/-- The pairs of a block. -/
def Kind.pairsIn (k : Kind) (source : Array Word) (blk : Block) : List Site :=
  pairsAmong source ((List.range' blk.start.toNat (blk.len.toNat - 1)).map (Site.mk k))

theorem Kind.mem_pairsIn : x ∈ k.pairsIn source blk ↔
    x.kind = k ∧ blk.start.toNat ≤ x.position ∧ x.position + 1 < blk.start.toNat + blk.len.toNat
      ∧ ∃ ab, x.fused? source = some ab := by
  obtain ⟨kind, p⟩ := x
  unfold pairsIn pairsAmong
  rw [List.mem_filter, List.mem_map, Option.isSome_iff_exists]
  dsimp only
  constructor
  · rintro ⟨⟨q, hq, hsite⟩, hsome⟩
    obtain ⟨rfl, rfl⟩ := Site.mk.inj hsite
    rw [List.mem_range'_1] at hq
    exact ⟨rfl, hq.1, by omega, hsome⟩
  · rintro ⟨rfl, hlow, hhigh, hsome⟩
    exact ⟨⟨p, List.mem_range'_1.mpr ⟨hlow, by omega⟩, rfl⟩, hsome⟩

theorem Kind.nodup_pairsIn : (k.pairsIn source blk).Nodup := by
  refine List.Nodup.filter _ ?_
  refine List.Nodup.map ?_ List.nodup_range'
  intro p q hpq
  exact (Site.mk.inj hpq).2

theorem Kind.countP_pairsIn (j : Kind) : (k.pairsIn source blk).countP (fun x => x.kind = j) =
    if k = j then (k.pairsIn source blk).length else 0 := by
  split
  · next hkj =>
    rw [List.countP_eq_length]
    intro x hx
    exact decide_eq_true ((mem_pairsIn.mp hx).1.trans hkj)
  · next hkj =>
    rw [List.countP_eq_zero]
    intro x hx
    rw [(mem_pairsIn.mp hx).1]
    exact fun h => hkj (of_decide_eq_true h)

/-- From `s` to `t` exactly the pairs at `sites` were written and counted. -/
structure Fused (source : Array Word) (sites : List Site) (s t : Compilation) : Prop where
  words : t.words = rewrite source sites s.words
  texts : ∀ q : Nat, (∀ x ∈ sites, ¬ x.Covers q) → t.texts[q]? = s.texts[q]?
  moves : t.fusedMoves = s.fusedMoves + sites.countP fun x => x.kind = .moves
  exits : t.fusedExits = s.fusedExits + sites.countP fun x => x.kind = .exits
  rest : t = { s with
    words := t.words, texts := t.texts, fusedMoves := t.fusedMoves, fusedExits := t.fusedExits }

theorem Fused.nil (s : Compilation) : Fused source [] s s :=
  ⟨rfl, fun _ _ => rfl, rfl, rfl, rfl⟩

theorem Fused.eq_of_nil (h : Fused source [] s t) : t = s := by
  have htexts : t.texts = s.texts := Array.ext_getElem? fun q => h.texts q (by simp)
  rw [h.rest, h.words, htexts, h.moves, h.exits]
  rfl

theorem Fused.append {u : Compilation} (h : Fused source xs s t) (h' : Fused source ys t u) :
    Fused source (xs ++ ys) s u := by
  refine ⟨?_, ?_, ?_, ?_, ?_⟩
  · rw [h'.words, h.words, rewrite_append]
  · intro q hq
    rw [h'.texts q fun x hx => hq x (List.mem_append_right _ hx)]
    exact h.texts q fun x hx => hq x (List.mem_append_left _ hx)
  · rw [h'.moves, h.moves, List.countP_append, Nat.add_assoc]
  · rw [h'.exits, h.exits, List.countP_append, Nat.add_assoc]
  · rw [h'.rest, h.rest]

theorem Fused.one {ab : Word × Word} {a b : String} (h : x.fused? source = some ab)
    (hwords : t.words =
      (s.words.setIfInBounds x.position ab.1).setIfInBounds (x.position + 1) ab.2)
    (htexts : t.texts = (s.texts.setIfInBounds x.position a).setIfInBounds (x.position + 1) b)
    (hmoves : t.fusedMoves = s.fusedMoves + if x.kind = .moves then 1 else 0)
    (hexits : t.fusedExits = s.fusedExits + if x.kind = .exits then 1 else 0) (hrest : t = { s with
      words := t.words, texts := t.texts, fusedMoves := t.fusedMoves
      fusedExits := t.fusedExits }) : Fused source (pairsAmong source [x]) s t := by
  have hone : pairsAmong source [x] = [x] := by simp [pairsAmong, h]
  rw [hone]
  refine ⟨?_, ?_, ?_, ?_, hrest⟩
  · rw [hwords]
    exact (Site.write_of_some h).symm
  · intro q hq
    have hq := hq x List.mem_cons_self
    unfold Site.Covers at hq
    rw [htexts, Array.getElem?_setIfInBounds_ne (by omega),
      Array.getElem?_setIfInBounds_ne (by omega)]
  · simpa [List.countP_cons] using hmoves
  · simpa [List.countP_cons] using hexits

/-! ## One round -/

variable {i j : Instr}

/-- Whether an operation works in place on a copy can be read off the two words. -/
theorem canFuse_eq_ok {b : Bool} (hi : i.StandsFor source p) (hj : j.StandsFor source q)
    (h : canFuse i j = .ok b) : b = Kind.moves.joins (unpacked i.word) (unpacked j.word) := by
  obtain ⟨f, hf, _, _⟩ := hi.operands
  obtain ⟨g, hg, hin, _⟩ := hj.operands
  rw [← (Word.decode_eq_ok_iff.mp hf).2, ← (Word.decode_eq_ok_iff.mp hg).2]
  unfold canFuse at h
  rw [hf, hg] at h
  change (if (!g.isArithmetic) = true then Except.ok false
    else if (!f.isMove) = true then Except.ok false
    else need i.output >>= fun copied => need j.output >>= fun result =>
      Except.ok (copied.register == result.register && j.reads result.register && g.isFusible))
      = Except.ok b at h
  -- an operation with a three-operand form is arithmetic and reads what it writes, so of
  -- the tests only those on the copy and on the registers are left
  by_cases hfusible : g.isFusible = true
  · obtain ⟨harith, hnop, hreads, hwrites⟩ := Fields.operands_of_isFusible hfusible
    rw [harith] at h
    by_cases hmove : f.isMove = true
    · obtain ⟨hnop', _, hwrites'⟩ := Fields.operands_of_isMove hmove
      obtain ⟨o, ho, hor⟩ := hi.output_eq hf hnop' hwrites'
      obtain ⟨o', ho', hor'⟩ := hj.output_eq hg hnop hwrites
      have hread : j.reads g.dst = true := by
        have hany : j.reads g.dst = (j.inputs.map Operand.register).any (· == g.dst) := by
          rw [List.any_map]
          rfl
        rw [hany, hin, hreads]
        simp
      rw [hmove, ho, ho'] at h
      rw [← Except.ok.inj h, hor, hor', hread, hfusible]
      simp [Kind.joins, hmove, hfusible]
    · rw [Bool.not_eq_true] at hmove
      rw [hmove] at h
      rw [← Except.ok.inj h]
      simp [Kind.joins, hmove]
  · rw [Bool.not_eq_true] at hfusible
    have hjoins : Kind.moves.joins f g = false := by simp [Kind.joins, hfusible]
    rw [hjoins]
    split at h
    · exact (Except.ok.inj h).symm
    · split at h
      · exact (Except.ok.inj h).symm
      · obtain ⟨_, _, h⟩ := bind_eq_ok.mp h
        obtain ⟨_, _, h⟩ := bind_eq_ok.mp h
        rw [← Except.ok.inj h, hfusible, Bool.and_false]

theorem fused_of_not_joins (s : Compilation) (hi : i.StandsFor source p)
    (hj : j.StandsFor source (p + 1)) (h : k.joins (unpacked i.word) (unpacked j.word) = false) :
    Fused source (pairsAmong source [⟨k, p⟩]) s s := by
  have hnone : pairsAmong source [⟨k, p⟩] = [] := by
    simp [pairsAmong, Site.fused?_of_words hi.word hj.word, h]
  rw [hnone]
  exact Fused.nil s

section
variable (hi : i.StandsFor source p) (hj : j.StandsFor source (p + 1))
include hi hj

theorem runs_fuseMove (h : Runs (fuseMove i j) s u t) :
    Fused source (pairsAmong source [⟨.moves, p⟩]) s t := by
  obtain ⟨f, hf, hin, _⟩ := hi.operands
  obtain ⟨g, hg, _, _⟩ := hj.operands
  obtain ⟨hproper, rfl⟩ := Word.decode_eq_ok_iff.mp hf
  obtain ⟨hproper', rfl⟩ := Word.decode_eq_ok_iff.mp hg
  obtain ⟨b, hb, h⟩ := runs_lift_bind.mp h
  have hjoins := (canFuse_eq_ok hi hj hb).symm
  cases b with
  | false =>
    obtain ⟨_, rfl⟩ := runs_pure.mp h
    exact fused_of_not_joins t hi hj hjoins
  | true =>
    have hsome := Site.fused?_eq_some_iff (x := ⟨.moves, p⟩).mpr
      ⟨_, _, hi.word, hj.word, hjoins, rfl⟩
    simp only [Kind.joins, Bool.and_eq_true] at hjoins
    obtain ⟨o, ho, _⟩ := Fields.isFusible_iff.mp hjoins.1.2
    simp only [if_true, runs_lift_bind, need_eq_ok_iff, hj.position, Option.some.injEq,
      exists_eq_left'] at h
    obtain ⟨r, hr, word, hword, f', hf', o', ho', text, _, h⟩ := h
    -- the source is taken from the operands of the parsed copy, not from its word
    have hsrc : r.register = (unpacked i.word).src := by
      obtain ⟨rest, hrest⟩ := List.head?_eq_some_iff.mp hr
      rw [hrest, (Fields.operands_of_isMove hjoins.1.1).2.1] at hin
      exact (List.cons.inj hin).1
    rw [hsrc] at hword
    obtain ⟨hdecode, hencode⟩ := Word.setOpcode_setSource hproper'
      (congrArg Fields.src (Word.reduced_unpacked hproper)) (Opcode.emod_of_fused? ho) hword
    obtain rfl := Except.ok.inj (hdecode.symm.trans hf')
    obtain rfl := Option.mem_unique ho ho'
    obtain ⟨_, s₁, hr₁, h⟩ := runs_bind.mp h
    obtain ⟨_, s₂, hr₂, h⟩ := runs_bind.mp h
    -- the operation is written before the copy, a pair is listed the other way round
    have hback : ((p + 1 : Nat) : Int) - 1 = (p : Int) := by omega
    rw [hback] at hr₂
    obtain ⟨_, _, rfl⟩ := runs_setProgram.mp hr₁
    obtain ⟨_, _, rfl⟩ := runs_setProgram.mp hr₂
    obtain rfl := runs_modify.mp h
    refine Fused.one hsome ?_ (Array.setIfInBounds_comm _ _ (by omega)) rfl rfl rfl
    rw [hencode]
    simp only [Kind.fuse, ho, Option.getD_some]
    exact Array.setIfInBounds_comm _ _ (by omega)

theorem runs_fuseExit (h : Runs (fuseExit i j) s u t) :
    Fused source (pairsAmong source [⟨.exits, p⟩]) s t := by
  obtain ⟨f, hf, _, _⟩ := hi.operands
  obtain ⟨g, hg, _, _⟩ := hj.operands
  obtain ⟨hproper, rfl⟩ := Word.decode_eq_ok_iff.mp hf
  obtain ⟨_, rfl⟩ := Word.decode_eq_ok_iff.mp hg
  unfold fuseExit at h
  simp only [runs_fieldsOf_bind, hg, Except.ok.injEq, exists_eq_left'] at h
  split at h
  · next hexit =>
    simp only [runs_fieldsOf_bind, hf, Except.ok.injEq, exists_eq_left'] at h
    split at h
    · next hmove =>
      have hsome := Site.fused?_eq_some_iff (x := ⟨.exits, p⟩).mpr
        ⟨_, _, hi.word, hj.word, by simp [Kind.joins, hexit, hmove], rfl⟩
      simp only [runs_lift_bind, need_eq_ok_iff, hj.position, Option.some.injEq,
        exists_eq_left'] at h
      obtain ⟨word, hword, h⟩ := h
      obtain ⟨_, hencode⟩ := Word.setOpcode_setSource (o := Opcode.moveExit) hproper (by decide)
        (by decide) hword
      obtain ⟨_, s₁, hr₁, h⟩ := runs_bind.mp h
      obtain ⟨_, s₂, hr₂, h⟩ := runs_bind.mp h
      have hback : ((p + 1 : Nat) : Int) - 1 = (p : Int) := by omega
      rw [hback] at hr₁
      obtain ⟨_, _, rfl⟩ := runs_setProgram.mp hr₁
      obtain ⟨_, _, rfl⟩ := runs_setProgram.mp hr₂
      obtain rfl := runs_modify.mp h
      refine Fused.one hsome ?_ rfl rfl rfl rfl
      rw [hencode]
      rfl
    · next hmove =>
      obtain ⟨_, rfl⟩ := runs_pure.mp h
      exact fused_of_not_joins t hi hj (by simp [Kind.joins, hmove])
  · next hexit =>
    obtain ⟨_, rfl⟩ := runs_pure.mp h
    exact fused_of_not_joins t hi hj (by simp [Kind.joins, hexit])

theorem runs_round (h : Runs (k.round i j) s u t) :
    Fused source (pairsAmong source [⟨k, p⟩]) s t := by
  cases k with
  | moves => exact runs_fuseMove hi hj h
  | exits => exact runs_fuseExit hi hj h

end

/-! ## Passes over blocks -/

/-- The instructions of a block are those of a program from its start to its end. -/
structure Parsed (source : Array Word) (c : Compilation) (blk : Block) : Prop where
  length : (c.bodyOf blk).length = blk.len.toNat
  stands : ∀ (n : Nat) (i : Instr), (c.bodyOf blk)[n]? = some i →
    i.StandsFor source (blk.start.toNat + n)

theorem pairsAmong_append :
    pairsAmong source (xs ++ ys) = pairsAmong source xs ++ pairsAmong source ys :=
  List.filter_append _ _

section
variable (h : Parsed source c blk)
include h

theorem Parsed.congr (hstore : s.store = c.store) :
    Parsed source s blk := by
  have hbody : s.bodyOf blk = c.bodyOf blk := by
    unfold bodyOf
    rw [hstore]
  exact ⟨hbody ▸ h.length, hbody ▸ h.stands⟩

theorem Parsed.proper (hlow : blk.start.toNat ≤ q) (hhigh : q < blk.start.toNat + blk.len.toNat)
    (hw : source[q]? = some w) : Proper w := by
  have hi := List.getElem?_eq_getElem
    (by rw [h.length]; omega : q - blk.start.toNat < (c.bodyOf blk).length)
  have hstands := h.stands _ _ hi
  rw [Nat.add_sub_cancel' hlow] at hstands
  obtain ⟨f, hf, _⟩ := hstands.operands
  obtain rfl := Option.mem_unique hw hstands.word
  exact (Word.decode_eq_ok_iff.mp hf).1

/-- The words of the program at the positions of the instructions of a block. -/
def wordsOf (c : Compilation) (blk : Block) : List Word :=
  (c.bodyOf blk).filterMap fun i => i.position.bind (Position.get? c.words)

theorem Parsed.wordsOf_eq (hsize : c.words.size = source.size) :
    wordsOf c blk = (c.words.toList.drop blk.start.toNat).take blk.len.toNat := by
  have hget : ∀ (n : Nat) (i : Instr), (c.bodyOf blk)[n]? = some i →
      i.position.bind (Position.get? c.words) = c.words[blk.start.toNat + n]? ∧
        blk.start.toNat + n < c.words.size := by
    intro n i hi
    have hstands := h.stands n i hi
    have hlt : blk.start.toNat + n < c.words.size :=
      hsize ▸ (lt_size hstands.word)
    rw [hstands.position, Option.bind_some, Position.get?, Position.resolve_natCast hlt]
    exact ⟨rfl, hlt⟩
  have htotal : ∀ i ∈ c.bodyOf blk, ∃ w, i.position.bind (Position.get? c.words) = some w := by
    intro i hi
    obtain ⟨n, hn⟩ := List.mem_iff_getElem?.mp hi
    obtain ⟨heq, hlt⟩ := hget n i hn
    exact ⟨_, heq.trans (Array.getElem?_eq_getElem hlt)⟩
  apply List.ext_getElem?
  intro n
  rw [wordsOf, (getElem?_filterMap_total htotal).1, List.getElem?_take, List.getElem?_drop]
  by_cases hn : n < blk.len.toNat
  · have hi := List.getElem?_eq_getElem (h.length.symm ▸ hn : n < (c.bodyOf blk).length)
    rw [if_pos hn, hi, Array.getElem?_toList]
    exact (hget n _ hi).1
  · rw [if_neg hn, List.getElem?_eq_none (by rw [h.length]; omega)]
    rfl

theorem Parsed.getElem?_wordsOf (hsize : c.words.size = source.size) (n : Nat) :
    (wordsOf c blk)[n]? =
      if n < blk.len.toNat then c.words[blk.start.toNat + n]? else none := by
  rw [h.wordsOf_eq hsize, List.getElem?_take, List.getElem?_drop, Array.getElem?_toList]

end

theorem runs_pass (hblk : Parsed source s blk) (h : Runs (k.pass blk) s u t) :
    Fused source (k.pairsIn source blk) s t := by
  rw [Kind.pass_eq, runs_body_bind] at h
  -- after `m` rounds the pairs among the first `m` sites of the block are fused
  have hloop := runs_forM_induct (fun m t => Fused source
    (pairsAmong source ((List.range' blk.start.toNat m).map (Site.mk k))) s t) h (Fused.nil s) ?_
  · have hlength : (neighbours (s.bodyOf blk)).length = blk.len.toNat - 1 := by
      simp [neighbours, hblk.length]
    rwa [hlength] at hloop
  · intro m x s' t' hx hs hr
    obtain ⟨hi, hj⟩ := List.getElem?_zip_eq_some.mp hx
    rw [List.getElem?_drop, Nat.add_comm] at hj
    have hround := runs_round (hblk.stands m x.1 hi) (hblk.stands (m + 1) x.2 hj) hr
    rw [List.range'_1_concat, List.map_append, pairsAmong_append]
    exact hs.append hround

theorem parsed_of_analyse (hs : Optimize.Uncut s) (h : Runs analyse s u c) (hblk : blk ∈ c.blocks) :
    Parsed s.words c blk := by
  obtain ⟨hlaid, _⟩ := runs_analyse hs h
  obtain ⟨b, hb⟩ := Array.mem_iff_getElem?.mp hblk
  rcases basic_or_unfilled hs h hblk with hkind | ⟨hlen, hbody⟩
  · have hholds := hlaid.holds b blk hb hkind
    refine ⟨(hlaid.bodyOf_length hb hkind).trans hholds.size, ?_⟩
    intro n i hi
    rw [hlaid.bodyOf_getElem? hb hkind, Option.bind_eq_some_iff] at hi
    obtain ⟨id, hid, hi⟩ := hi
    obtain ⟨i', hi', hstands, _⟩ := hholds.instr n id hid
    obtain rfl := Option.mem_unique hi hi'
    exact hstands
  · -- nothing is laid out for the other blocks, and there is nothing in them
    have hnone : c.bodyOf blk = [] := by simp [bodyOf, hbody]
    exact ⟨by rw [hnone, hlen]; rfl, by simp [hnone]⟩

theorem runs_passes {done : List (Kind × Block)} (hdone : ∀ x ∈ done, Parsed source s x.2)
    (h : Runs (done.forM fun x => x.1.pass x.2) s u t) :
    Fused source (done.flatMap fun x => x.1.pairsIn source x.2) s t := by
  induction done generalizing s with
  | nil =>
    obtain ⟨_, rfl⟩ := runs_pure.mp h
    exact Fused.nil t
  | cons x done ih =>
    obtain ⟨_, s', hr, h⟩ := runs_bind.mp h
    have hx := runs_pass (hdone x List.mem_cons_self) hr
    have hstore : s'.store = s.store := by rw [hx.rest]
    have hrest := ih (fun y hy => (hdone y (List.mem_cons_of_mem x hy)).congr hstore) h
    exact hx.append hrest

/-! ## Programs under fusion -/

/-- Compilation `d` comes from a program that was cut into blocks, by passes over some
    of the blocks. -/
structure Reached (words : Array Word) (done : List (Kind × Block)) (c d : Compilation) : Prop where
  cut : ∃ target options texts, Runs analyse (start target options words texts) () c
  blocks : ∀ x ∈ done, x.2 ∈ c.blocks
  passes : Runs (done.forM fun x => x.1.pass x.2) c () d

theorem Reached.of_finishes {texts : Array String} (k : Kind) (hs : s = start {} {} words texts)
    (hcut : finishes analyse s = true) (hc : c = stateAfter analyse s)
    (hpasses : finishes ((c.blocks.toList.map (Prod.mk k)).forM fun x => x.1.pass x.2) c = true)
    (hd : d = stateAfter ((c.blocks.toList.map (Prod.mk k)).forM fun x => x.1.pass x.2) c) :
    Reached words (c.blocks.toList.map (Prod.mk k)) c d := by
  refine ⟨⟨{}, {}, texts, ?_⟩, ?_, ?_⟩
  · rw [← hs, hc]
    exact runs_after hcut
  · intro x hx
    obtain ⟨b, hb, rfl⟩ := List.mem_map.mp hx
    exact Array.mem_toList_iff.mp hb
  · rw [hd]
    exact runs_after hpasses

section
variable {done : List (Kind × Block)} (h : Reached words done c d) (hwords : NoJumpBefore words)
include h hwords

theorem Reached.laid : Laid Instr.Unmarked words c ∧ c.words = words := by
  obtain ⟨target, options, texts, hcut⟩ := h.cut
  obtain ⟨hlaid, hrest⟩ := runs_analyse (Optimize.uncut_start hwords) hcut
  exact ⟨hlaid, by rw [hrest]; rfl⟩

theorem Reached.parsed (hblk : blk ∈ c.blocks) : Parsed words c blk := by
  obtain ⟨target, options, texts, hcut⟩ := h.cut
  exact parsed_of_analyse (Optimize.uncut_start hwords) hcut hblk

theorem Reached.fused : Fused words (done.flatMap fun x => x.1.pairsIn words x.2) c d :=
  runs_passes (fun x hx => h.parsed hwords (h.blocks x hx)) h.passes

theorem Reached.size : d.words.size = words.size := by
  rw [(h.fused hwords).words, size_rewrite, (h.laid hwords).2]

theorem Reached.still_parsed (hblk : blk ∈ c.blocks) : Parsed words d blk :=
  (h.parsed hwords hblk).congr (by rw [(h.fused hwords).rest])

end

end Fusion
end BpfLanes
