import BpfLanes.Proofs.BlockChain
import BpfLanes.Proofs.PairFusion

/-! # Fused copies mean the same

A copy and an operation in place on the copied value leave a machine as the
three-operand instruction does that stands for them. Pairs do not overlap, so this
carries over to a block however many of its pairs are fused, one after another, and
whatever was fused before: the words of a block mean the same before and after.
-/

namespace BpfLanes.Fusion

open Compilation BpfLanes.Flow
open Word (Proper unpacked)

variable {source words : Array Word} {len n start : Nat} {w w' : Word}

/-! ## Machines -/

/-- What a machine holds: values in registers, and everything else. -/
structure Machine (V M : Type) where
  registers : Int → V
  rest : M

variable {V M : Type}

namespace Machine

/-- A value is put into a register. -/
def put (m : Machine V M) (r : Int) (v : V) : Machine V M :=
  { m with registers := fun q => if q = r then v else m.registers q }

@[simp] theorem registers_put_self (m : Machine V M) (r : Int) (v : V) :
    (m.put r v).registers r = v :=
  if_pos rfl

@[simp] theorem put_put (m : Machine V M) (r : Int) (v v' : V) :
    (m.put r v).put r v' = m.put r v' := by
  unfold put
  rw [Machine.mk.injEq]
  refine ⟨funext fun q => ?_, rfl⟩
  by_cases hq : q = r
  · rw [if_pos hq, if_pos hq]
  · rw [if_neg hq, if_neg hq]
    exact if_neg hq

end Machine

/-- What each word does to a machine. -/
abbrev Meaning (V M : Type) := Word → Machine V M → Machine V M

/-- What some words do, one after another. -/
def run (step : Meaning V M) (words : List Word) (m : Machine V M) : Machine V M :=
  words.foldl (fun m w => step w m) m

/-- Doing nothing, copies, operations in place and their three-operand forms mean what
    their names say. Of the operation with opcode `c` only its result `operate c x n` on
    a value and an immediate matters, and all other words may mean anything. -/
structure Respects (step : Meaning V M) (operate : Int → V → Int → V) : Prop where
  nop : ∀ m, step Word.nop m = m
  copy : ∀ w f m, Fields.decode w = .ok f → f.isMove = true →
    step w m = m.put f.dst (m.registers f.src)
  inPlace : ∀ w f m, Fields.decode w = .ok f → f.isFusible = true →
    step w m = m.put f.dst (operate f.opcode (m.registers f.dst) f.immediate)
  threeOperand : ∀ w f c m, Fields.decode w = .ok f → Opcode.fused? c = some f.opcode →
    step w m = m.put f.dst (operate c (m.registers f.src) f.immediate)

/-! ## One pair -/

theorem decode_fuse_moves {o : Int} (hw : Proper w) (hw' : Proper w')
    (ho : Opcode.fused? (unpacked w').opcode = some o) :
    Fields.decode (Kind.moves.fuse (unpacked w) (unpacked w')).2 =
      .ok { unpacked w' with opcode := o, src := (unpacked w).src } := by
  rw [Kind.fuse, ho]
  exact Fields.decode_retagged (Word.reduced_unpacked hw') (Opcode.emod_of_fused? ho)
    (congrArg Fields.src (Word.reduced_unpacked hw))

variable {step : Meaning V M} {operate : Int → V → Int → V}

theorem run_fuse_moves (hstep : Respects step operate) (hw : Proper w) (hw' : Proper w')
    (hjoins : Kind.moves.joins (unpacked w) (unpacked w') = true) (m : Machine V M) :
    run step [(Kind.moves.fuse (unpacked w) (unpacked w')).1,
        (Kind.moves.fuse (unpacked w) (unpacked w')).2] m = run step [w, w'] m := by
  simp only [Kind.joins, Bool.and_eq_true, beq_iff_eq] at hjoins
  obtain ⟨⟨hmove, hfusible⟩, hdst⟩ := hjoins
  obtain ⟨o, ho, _⟩ := Fields.isFusible_iff.mp hfusible
  have hfused := decode_fuse_moves hw hw' ho
  calc run step [(Kind.moves.fuse (unpacked w) (unpacked w')).1,
        (Kind.moves.fuse (unpacked w) (unpacked w')).2] m
      = step (Kind.moves.fuse (unpacked w) (unpacked w')).2 (step Word.nop m) := rfl
    _ = m.put (unpacked w').dst (operate (unpacked w').opcode (m.registers (unpacked w).src)
          (unpacked w').immediate) := by
        rw [hstep.nop, hstep.threeOperand _ _ _ m hfused ho]
    _ = step w' (m.put (unpacked w).dst (m.registers (unpacked w).src)) := by
        rw [hstep.inPlace w' _ _ (Word.decode_proper hw') hfusible, hdst,
          Machine.registers_put_self, Machine.put_put]
    _ = run step [w, w'] m := by
        rw [← hstep.copy w _ m (Word.decode_proper hw) hmove]
        rfl

theorem run_set_pair {a b : Word}
    (h : ∀ m, run step [a, b] m = run step [w, w'] m) {words : List Word} (hw : words[n]? = some w)
    (hw' : words[n + 1]? = some w') (m : Machine V M) :
    run step ((words.set n a).set (n + 1) b) m = run step words m := by
  induction words generalizing n m with
  | nil => cases hw
  | cons v words ih =>
    cases n with
    | zero =>
      cases words with
      | nil => cases hw'
      | cons v' words =>
        cases hw
        cases hw'
        exact congrArg (run step words) (h m)
    | succ n => exact ih hw hw' (step v m)

/-! ## Blocks -/

theorem stretch_write {x : Site} {ab : Word × Word} (h : x.fused? source = some ab)
    (hx : x.position = start + n) : ((x.write source words).toList.drop start).take len =
      (((words.toList.drop start).take len).set n ab.1).set (n + 1) ab.2 := by
  rw [Site.write_of_some h, Array.toList_setIfInBounds, Array.toList_setIfInBounds, hx,
    List.drop_set, if_neg (by omega), List.drop_set, if_neg (by omega), List.take_set,
    List.take_set]
  congr 2 <;> omega

theorem run_rewrite (hstep : Respects step operate) {sites : List Site}
    (hproper : ∀ (q : Nat) (w : Word), start ≤ q → q < start + len → source[q]? = some w → Proper w)
    (hsites : ∀ x ∈ sites, x.kind = .moves ∧ start ≤ x.position ∧ x.position + 1 < start + len)
    (hsize : words.size = source.size) (hstands : ∀ x : Site, x.Stands source words)
    (m : Machine V M) : run step (((rewrite source sites words).toList.drop start).take len) m =
      run step ((words.toList.drop start).take len) m := by
  induction sites generalizing words with
  | nil => rfl
  | cons x sites ih =>
    rw [rewrite_cons, ih (fun y hy => hsites y (List.mem_cons_of_mem x hy))
      (Site.size_write.trans hsize) fun y => Site.write_stands hsize (hstands y)]
    obtain ⟨hkind, hlow, hhigh⟩ := hsites x List.mem_cons_self
    cases hx : x.fused? source with
    | none => rw [Site.write_of_none hx]
    | some ab =>
      obtain ⟨w, w', hw, hw', hjoins, hab⟩ := Site.fused?_eq_some_iff.mp hx
      obtain ⟨n, hn⟩ : ∃ n, x.position = start + n := ⟨x.position - start, by omega⟩
      have hget : ∀ k, k < len → ((words.toList.drop start).take len)[k]? = words[start + k]? := by
        intro k hk
        rw [List.getElem?_take, if_pos hk, List.getElem?_drop, Array.getElem?_toList]
      have hfirst := hget n (by omega)
      have hsecond := hget (n + 1) (by omega)
      rw [← Nat.add_assoc, ← hn] at hsecond
      rw [← hn] at hfirst
      rw [stretch_write hx hn]
      -- a pair that an earlier pass has fused is written once more as it is
      rcases hstands x ab hx with ⟨hold, hold'⟩ | ⟨hnew, hnew'⟩
      · refine run_set_pair ?_ (hfirst.trans (hold.trans hw)) (hsecond.trans (hold'.trans hw')) m
        rw [hkind] at hjoins hab
        rw [hab]
        exact run_fuse_moves hstep (hproper _ w hlow (by omega) hw)
          (hproper _ w' (by omega) hhigh hw') hjoins
      · exact run_set_pair (fun _ => rfl) (hfirst.trans hnew) (hsecond.trans hnew') m

/-- Whatever was fused before, fusing the copies of a block keeps what its words mean.
    It rewrites exactly the pairs of the block, counts them, and leaves all other
    positions of the program alone. -/
theorem fused_moves_keep_meaning {words : Array Word} (hwords : NoJumpBefore words)
    {done : List (Kind × Block)} {c d e : Compilation} (hd : Reached words done c d) {blk : Block}
    (hblk : blk ∈ c.blocks) (hrun : Runs (fuseMoves blk) d () e) :
    (∀ (V M : Type) (step : Meaning V M) (operate : Int → V → Int → V), Respects step operate →
        ∀ m, run step (wordsOf e blk) m = run step (wordsOf d blk) m)
      ∧ (Kind.moves.pairsIn words blk).Nodup
      ∧ e.fusedMoves = d.fusedMoves + (Kind.moves.pairsIn words blk).length
      ∧ (∀ x ∈ Kind.moves.pairsIn words blk, ∃ f g o, WordAt words x.position f
          ∧ WordAt words (x.position + 1) g ∧ f.isMove = true ∧ f.dst = g.dst
          ∧ Opcode.fused? g.opcode = some o ∧ e.words[x.position]? = some Word.nop
          ∧ e.words[x.position + 1]? = some { g with opcode := o, src := f.src }.encode)
      ∧ (∀ q, (∀ x ∈ Kind.moves.pairsIn words blk, ¬ x.Covers q) →
          e.words[q]? = d.words[q]? ∧ e.texts[q]? = d.texts[q]?)
      ∧ e = { d with words := e.words, texts := e.texts, fusedMoves := e.fusedMoves } := by
  have hsize := hd.size hwords
  have hparsed := hd.still_parsed hwords hblk
  have hpass : Fused words (Kind.moves.pairsIn words blk) d e := runs_pass hparsed hrun
  have hparsed' : Parsed words e blk := hparsed.congr (by rw [hpass.rest])
  have hesize : e.words.size = words.size := by rw [hpass.words, size_rewrite, hsize]
  -- at first every pair stands as it is, and no pass changes that but by fusing it
  have hstands : ∀ x : Site, x.Stands words d.words := by
    intro x
    rw [(hd.fused hwords).words, (hd.laid hwords).2]
    exact Site.rewrite_stands rfl fun ab _ => Or.inl ⟨rfl, rfl⟩
  have hmoves := hpass.moves
  have hexits := hpass.exits
  rw [Kind.countP_pairsIn, if_pos rfl] at hmoves
  rw [Kind.countP_pairsIn, if_neg (by decide), Nat.add_zero] at hexits
  refine ⟨?_, Kind.nodup_pairsIn, hmoves, ?_, ?_, ?_⟩
  · intro V M step operate hstep m
    rw [hparsed'.wordsOf_eq hesize, hparsed.wordsOf_eq hsize, hpass.words]
    refine run_rewrite hstep (fun q w => hparsed.proper) ?_ hsize hstands m
    intro x hx
    obtain ⟨hkind, hlow, hhigh, _⟩ := Kind.mem_pairsIn.mp hx
    exact ⟨hkind, hlow, hhigh⟩
  · intro x hx
    obtain ⟨hkind, hlow, hhigh, ab, hab⟩ := Kind.mem_pairsIn.mp hx
    obtain ⟨hfirst, hsecond⟩ := getElem?_rewrite hsize hab (Or.inl hx)
    rw [← hpass.words] at hfirst hsecond
    obtain ⟨w, w', hw, hw', hjoins, rfl⟩ := Site.fused?_eq_some_iff.mp hab
    have hf := Word.decode_proper (hparsed.proper hlow (by omega) hw)
    have hg := Word.decode_proper (hparsed.proper (by omega) hhigh hw')
    rw [hkind] at hjoins hfirst hsecond
    simp only [Kind.joins, Bool.and_eq_true, beq_iff_eq] at hjoins
    obtain ⟨o, ho, _⟩ := Fields.isFusible_iff.mp hjoins.1.2
    rw [Kind.fuse, ho] at hsecond
    exact ⟨_, _, o, ⟨w, hw, hf⟩, ⟨w', hw', hg⟩, hjoins.1.1, hjoins.2, ho, hfirst, hsecond⟩
  · intro q hq
    refine ⟨?_, hpass.texts q hq⟩
    rw [hpass.words]
    exact getElem?_rewrite_of_not_covers hq
  · rw [← hexits]
    exact hpass.rest

/-- A meaning where words that are not fused do nothing. -/
def plainMeaning {V M : Type} (operate : Int → V → Int → V) : Meaning V M := fun w m =>
  match Fields.decode w with
  | .error _ => m
  | .ok f =>
    if f.isMove then m.put f.dst (m.registers f.src)
    else if f.isFusible then m.put f.dst (operate f.opcode (m.registers f.dst) f.immediate)
    else match Opcode.fusedForms.find? fun e => e.2 == f.opcode with
      | some e => m.put f.dst (operate e.1 (m.registers f.src) f.immediate)
      | none => m

theorem plainMeaning_respects (operate : Int → V → Int → V) :
    Respects (plainMeaning (M := M) operate) operate := by
  refine ⟨?_, ?_, ?_, ?_⟩
  · intro m
    rfl
  · intro w f m hf hmove
    unfold plainMeaning
    rw [hf]
    exact if_pos hmove
  · intro w f m hf hfusible
    obtain ⟨o, _, hmem⟩ := Fields.isFusible_iff.mp hfusible
    have hall : ∀ e ∈ Opcode.fusedForms, e.1 ≠ Opcode.move := by decide
    have hmove : ¬ f.isMove = true := by simpa [Fields.isMove] using hall _ hmem
    unfold plainMeaning
    rw [hf]
    dsimp only
    rw [if_neg hmove, if_pos hfusible]
  · intro w f c m hf hfused
    have hall : ∀ e ∈ Opcode.fusedForms, e.2 ≠ Opcode.move ∧ (Opcode.fused? e.2).isSome = false
        ∧ Opcode.fusedForms.find? (fun x => x.2 == e.2) = some e := by decide
    obtain ⟨hmove, hfusible, hfind⟩ := hall _ (Fields.mem_of_lookup hfused)
    unfold plainMeaning
    rw [hf]
    dsimp only
    rw [if_neg (by simpa [Fields.isMove] using hmove),
      if_neg (by simpa [Fields.isFusible] using hfusible), hfind]

/-- Two copies into the same register, each changed in place, before an exit. -/
def copiesInARow : Array Word :=
  #[0xbf21000000000000, 0x0701000005000000, 0xbf31000000000000, 0x6701000002000000,
    0x0500000000000000, 0xb700000001000000, 0x9500000000000000]

/-- The texts of that program. -/
def copiesInARowTexts : Array String :=
  #["r1 = r2", "r1 += 5", "r1 = r3", "r1 <<= 2", "goto +0", "r0 = 1", "exit"]

/-- With the exit fused before, both copies of the first block are fused. -/
theorem fused_moves_keep_meaning_copiesInARow :
    ∃ (done : List (Kind × Block)) (c d e : Compilation) (blk : Block),
      NoJumpBefore copiesInARow ∧ Reached copiesInARow done c d ∧ blk ∈ c.blocks
        ∧ Runs (fuseMoves blk) d () e ∧ d.fusedExits = 1 ∧ e.fusedMoves = 2
        ∧ wordsOf e blk = [Word.nop, 0x8f21000005000000, Word.nop, 0xef31000002000000,
          0x0500000000000000]
        ∧ (∀ (operate : Int → Int → Int → Int) (m : Machine Int Unit),
          run (plainMeaning operate) (wordsOf e blk) m =
            run (plainMeaning operate) (wordsOf d blk) m) := by
  obtain ⟨s, hs⟩ : ∃ s, s = start {} {} copiesInARow copiesInARowTexts := ⟨_, rfl⟩
  obtain ⟨c, hc⟩ : ∃ c, c = stateAfter analyse s := ⟨_, rfl⟩
  obtain ⟨d, hd⟩ : ∃ d, d = stateAfter ((c.blocks.toList.map (Prod.mk Kind.exits)).forM
    fun x => x.1.pass x.2) c := ⟨_, rfl⟩
  have hreached := Reached.of_finishes .exits hs (by rw [hs]; decide +kernel) hc
    (by rw [hc, hs]; decide +kernel) hd
  have hblock : ∃ blk, blk ∈ c.blocks[1]? ∧ finishes (fuseMoves blk) d = true
      ∧ wordsOf (stateAfter (fuseMoves blk) d) blk =
        [Word.nop, 0x8f21000005000000, Word.nop, 0xef31000002000000, 0x0500000000000000]
      ∧ (stateAfter (fuseMoves blk) d).fusedMoves = 2 ∧ d.fusedExits = 1 := by
    rw [hd, hc, hs]
    decide +kernel
  obtain ⟨blk, hblk, hfinishes, hwordsOf, hmoves, hexits⟩ := hblock
  have hrun := runs_after hfinishes
  have hmem : blk ∈ c.blocks := Array.mem_of_getElem? hblk
  have hwords : NoJumpBefore copiesInARow := by decide +kernel
  obtain ⟨hmeaning, _⟩ := fused_moves_keep_meaning hwords hreached hmem hrun
  exact ⟨_, c, d, _, blk, hwords, hreached, hmem, hrun, hexits, hmoves, hwordsOf,
    fun operate m => hmeaning Int Unit _ _ (plainMeaning_respects operate) m⟩

end BpfLanes.Fusion
