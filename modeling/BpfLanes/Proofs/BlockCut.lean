import BpfLanes.Flow
import BpfLanes.Proofs.Access
import Mathlib.Data.List.Basic

/-! # Where a program is cut

The branches of a program are found first. Its blocks then start at the targets
of jumps and after branches: they follow one another without overlap, a branch
is the last instruction of its block, and a jump leads to the start of a block.
-/

namespace BpfLanes.Flow

open Compilation

variable {words : Array Word} {u : Unit}

variable {p x : Int} {xs rest : List Int} {c d : Compilation} {f : Fields} {b : Branches}

/-- No jump leads to a position before the program. (One that leads behind the end
    of it stops the compilation.) -/
def NoJumpBefore (words : Array Word) : Prop :=
  ∀ (p : Nat) (w : Word) (f : Fields), words[p]? = some w → Fields.decode w = .ok f →
    f.isJump = true → 0 ≤ (p : Int) + f.offset + 1

/-- Whether a word at a position is a jump to a position before the program. -/
def jumpsBefore (p : Nat) (w : Word) : Bool :=
  match Fields.decode w with
  | .ok f => f.isJump && decide ((p : Int) + f.offset + 1 < 0)
  | .error _ => false

theorem noJumpBefore_iff :
    NoJumpBefore words ↔ ∀ p : Fin words.size, jumpsBefore p words[p] = false := by
  constructor
  · intro h p
    unfold jumpsBefore
    split
    · next f hf =>
      have hp := h p words[p] f (Array.getElem?_eq_getElem p.isLt) hf
      by_cases hj : f.isJump = true
      · have := hp hj
        simp only [hj, Bool.true_and, decide_eq_false_iff_not]
        omega
      · simp [hj]
    · rfl
  · intro h p w f hw hf hj
    obtain ⟨hlt, rfl⟩ := Array.getElem?_eq_some_iff.mp hw
    have hp := h ⟨p, hlt⟩
    unfold jumpsBefore at hp
    simp only [Fin.getElem_fin] at hp
    rw [hf] at hp
    simp only [hj, Bool.true_and, decide_eq_false_iff_not] at hp
    omega

instance (words : Array Word) : Decidable (NoJumpBefore words) :=
  decidable_of_iff _ noJumpBefore_iff.symm

/-! ## Branches -/

theorem mem_addOnce : x ∈ addOnce p xs ↔ x ∈ xs ∨ x = p := by
  unfold addOnce
  split
  · next h =>
    have hp : p ∈ xs := by simpa using h
    constructor
    · exact .inl
    · rintro (hx | rfl)
      · exact hx
      · exact hp
  · simp

theorem mem_targets_noteTarget {t : Int} {xs : List (Int × List Int)} :
    x ∈ (noteTarget t p xs).map Prod.fst ↔ x ∈ xs.map Prod.fst ∨ x = t := by
  unfold noteTarget
  split
  · next h =>
    have ht : t ∈ xs.map Prod.fst := by simpa using h
    have hkeys : (xs.map fun e => if e.1 == t then (e.1, e.2 ++ [p]) else e).map Prod.fst
        = xs.map Prod.fst := by
      rw [List.map_map]
      apply List.map_congr_left
      intro e _
      simp only [Function.comp]
      split <;> rfl
    rw [hkeys]
    constructor
    · exact .inl
    · rintro (hx | rfl)
      · exact hx
      · exact ht
  · simp

/-- What is noted of a branch: its position, and where a jump leads. -/
def noteBranch (position : Int) (f : Fields) (b : Branches) : Branches :=
  if f.isJump then
    { b with
      jumps := addOnce position b.jumps
      targets := noteTarget (position + f.offset + 1) position b.targets }
  else if f.isCall then { b with calls := addOnce position b.calls }
  else if f.isExit then { b with exits := addOnce position b.exits }
  else b

theorem runs_findBranch {position : Int} {word : Word} (h : Runs (findBranch position word) c u d) :
    ∃ f, Fields.decode word = .ok f
      ∧ (f.isJump = true → position + f.offset + 1 < c.words.size)
      ∧ d = { c with branches := noteBranch position f c.branches } := by
  unfold findBranch modifyBranches at h
  simp only [runs_lift_bind] at h
  obtain ⟨f, hf, h⟩ := h
  refine ⟨f, hf, ?_⟩
  unfold noteBranch
  by_cases hjump : f.isJump = true
  · simp only [hjump, if_true, runs_modify_bind, runs_get_bind] at h
    by_cases hlt : (c.words.size : Int) ≤ position + f.offset + 1
    · simp only [hlt, if_true] at h
      obtain ⟨_, _, hfail, _⟩ := runs_bind.mp h
      exact absurd hfail not_runs_fail
    · simp only [hlt, if_false, runs_modify] at h
      refine ⟨fun _ => by omega, ?_⟩
      rw [if_pos hjump, h]
  · simp only [hjump] at h ⊢
    refine ⟨fun hj => absurd hj (by simp), ?_⟩
    by_cases hcall : f.isCall = true
    · simpa [hcall] using h
    · by_cases hexit : f.isExit = true
      · simpa [hcall, hexit] using h
      · simpa [hcall, hexit] using h

theorem isBranch_iff (f : Fields) :
    f.isBranch = true ↔ f.isJump = true ∨ f.isCall = true ∨ f.isExit = true := by
  have hcall : f.isCall = true → f.isBranch = true := by
    unfold Fields.isCall Fields.isBranch
    rw [beq_iff_eq]
    rintro h
    rw [h]
    decide
  have hexit : f.isExit = true → f.isBranch = true := by
    unfold Fields.isExit Fields.isBranch
    generalize f.opcode = o
    intro h
    have ho : o = 0x95 ∨ o = Opcode.moveExit := by simpa [Opcode.exits] using h
    rcases ho with rfl | rfl <;> decide
  unfold Fields.isJump
  cases hb : f.isBranch <;> cases hc : f.isCall <;> cases he : f.isExit <;> simp_all

theorem isJump_excludes (h : f.isJump = true) : f.isExit = false ∧ f.isCall = false := by
  unfold Fields.isJump at h
  simp only [Bool.and_eq_true, Bool.not_eq_true'] at h
  exact ⟨h.1.2, h.2⟩

theorem not_isJump_of_isCall (h : f.isCall = true) : f.isJump = false := by
  unfold Fields.isJump
  simp [h]

theorem not_goto_of_isCall (h : f.isCall = true) : f.isExit = false ∧ f.isGoto = false := by
  have hop : f.opcode = Opcode.call := by simpa [Fields.isCall] using h
  unfold Fields.isExit Fields.isGoto
  rw [hop]
  decide

theorem not_isGoto_of_not_isJump (h : f.isJump = false) : f.isGoto = false := by
  by_contra hgoto
  have hop : f.opcode = Opcode.goto := by simpa [Fields.isGoto] using hgoto
  unfold Fields.isJump Fields.isBranch Fields.isExit Fields.isCall at h
  rw [hop] at h
  revert h
  decide

/-- A branch was noted at position `x`. -/
def Marks (b : Branches) (x : Int) : Prop :=
  x ∈ b.jumps ∨ x ∈ b.calls ∨ x ∈ b.exits

theorem marks_noteBranch :
    Marks (noteBranch p f b) x ↔ Marks b x ∨ (x = p ∧ f.isBranch = true) := by
  rw [isBranch_iff]
  unfold Marks noteBranch
  by_cases hj : f.isJump = true
  · rw [if_pos hj]
    simp only [mem_addOnce]
    tauto
  · rw [if_neg hj]
    by_cases hc : f.isCall = true
    · rw [if_pos hc]
      simp only [mem_addOnce]
      tauto
    · rw [if_neg hc]
      by_cases he : f.isExit = true
      · rw [if_pos he]
        simp only [mem_addOnce]
        tauto
      · simp [hj, hc, he]

theorem noteBranch_of_not_isJump (hj : ¬ f.isJump = true) :
    (noteBranch p f b).targets = b.targets ∧ (noteBranch p f b).jumps = b.jumps := by
  unfold noteBranch
  rw [if_neg hj]
  split
  · exact ⟨rfl, rfl⟩
  · split <;> exact ⟨rfl, rfl⟩

theorem targets_noteBranch :
    x ∈ (noteBranch p f b).targets.map Prod.fst ↔
      x ∈ b.targets.map Prod.fst ∨ (x = p + f.offset + 1 ∧ f.isJump = true) := by
  by_cases hj : f.isJump = true
  · simp only [noteBranch, hj, if_true, mem_targets_noteTarget, and_true]
  · simp [(noteBranch_of_not_isJump hj).1, hj]

theorem jumps_noteBranch :
    x ∈ (noteBranch p f b).jumps ↔ x ∈ b.jumps ∨ (x = p ∧ f.isJump = true) := by
  by_cases hj : f.isJump = true
  · simp only [noteBranch, hj, if_true, mem_addOnce, and_true]
  · simp [(noteBranch_of_not_isJump hj).2, hj]

/-- The word at position `p` of a program has the fields `f`. -/
def WordAt (words : Array Word) (p : Nat) (f : Fields) : Prop :=
  ∃ w, words[p]? = some w ∧ Fields.decode w = .ok f

theorem WordAt.lt {p : Nat} (h : WordAt words p f) : p < words.size := by
  obtain ⟨w, hw, _⟩ := h
  exact lt_size hw

theorem WordAt.unique {p : Nat} {f' : Fields} (h : WordAt words p f) (h' : WordAt words p f') :
    f = f' := by
  obtain ⟨w, hw, hf⟩ := h
  obtain ⟨w', hw', hf'⟩ := h'
  rw [hw] at hw'
  cases hw'
  exact Except.ok.inj (hf.symm.trans hf')

/-- The branches among the first `m` words of a program. -/
structure Listed (words : Array Word) (m : Nat) (b : Branches) : Prop where
  marks : ∀ x, Marks b x ↔
    ∃ (p : Nat) (f : Fields), p < m ∧ WordAt words p f ∧ x = p ∧ f.isBranch = true
  targets : ∀ x, x ∈ b.targets.map Prod.fst ↔
    ∃ (p : Nat) (f : Fields), p < m ∧ WordAt words p f ∧ x = p + f.offset + 1 ∧ f.isJump = true
  inside : ∀ x ∈ b.targets.map Prod.fst, x < words.size
  jumps : ∀ x ∈ b.jumps, ∃ (p : Nat) (f : Fields), x = p ∧ WordAt words p f ∧ f.isJump = true

/-- Among the first `m + 1` words, word `m` is the only one that is new. -/
theorem WordAt.exists_lt_succ {m : Nat} (hw : WordAt words m f) (R : Nat → Fields → Prop) :
    (∃ p g, p < m + 1 ∧ WordAt words p g ∧ R p g) ↔
      (∃ p g, p < m ∧ WordAt words p g ∧ R p g) ∨ R m f := by
  constructor
  · rintro ⟨p, g, hp, hg, hr⟩
    rcases Nat.lt_succ_iff_lt_or_eq.mp hp with hp | rfl
    · exact .inl ⟨p, g, hp, hg, hr⟩
    · exact .inr (hw.unique hg ▸ hr)
  · rintro (⟨p, g, hp, hg, hr⟩ | hr)
    · exact ⟨p, g, Nat.lt_succ_of_lt hp, hg, hr⟩
    · exact ⟨m, f, Nat.lt_succ_self m, hw, hr⟩

theorem Listed.step {m : Nat} (hb : Listed words m b) (hw : WordAt words m f)
    (hjump : f.isJump = true → (m : Int) + f.offset + 1 < words.size) :
    Listed words (m + 1) (noteBranch m f b) := by
  constructor
  · intro x
    rw [marks_noteBranch, hb.marks]
    exact (hw.exists_lt_succ fun p g => x = p ∧ g.isBranch = true).symm
  · intro x
    rw [targets_noteBranch, hb.targets]
    exact (hw.exists_lt_succ fun p g => x = p + g.offset + 1 ∧ g.isJump = true).symm
  · intro x hx
    rcases targets_noteBranch.mp hx with hx | ⟨rfl, hj⟩
    · exact hb.inside x hx
    · exact hjump hj
  · intro x hx
    rcases jumps_noteBranch.mp hx with hx | ⟨rfl, hj⟩
    · exact hb.jumps x hx
    · exact ⟨m, f, rfl, hw, hj⟩

theorem runs_findBranches (hc : c.branches = {}) (h : Runs findBranches c u d) :
    ∃ branches, d = { c with branches } ∧ Listed c.words c.words.size branches := by
  have hloop := runs_forM_induct
    (fun m (t : Compilation) => ∃ branches, t = { c with branches } ∧ Listed c.words m branches) h
    ⟨{}, by rw [← hc], ⟨by simp [Marks], by simp, by simp, by simp⟩⟩ ?_
  · simpa using hloop
  rintro m ⟨w, i⟩ s t hx ⟨branches, rfl, hb⟩ hr
  rw [List.getElem?_zipIdx, Option.map_eq_some_iff] at hx
  obtain ⟨w', hw, heq⟩ := hx
  obtain ⟨rfl, rfl⟩ : w' = w ∧ m = i := by simpa using heq
  obtain ⟨f, hf, hj, rfl⟩ := runs_findBranch hr
  have hw' : c.words[m]? = some w' := by simpa using hw
  exact ⟨_, rfl, hb.step ⟨w', hw', hf⟩ hj⟩

/-! ## Starts of blocks -/

theorem mem_insertSorted {a : Int} : a ∈ insertSorted x xs ↔ a = x ∨ a ∈ xs := by
  induction xs with
  | nil => simp [insertSorted]
  | cons y ys ih =>
    unfold insertSorted
    split
    · simp
    · split
      · next heq =>
        subst heq
        simp
      · simp only [List.mem_cons, ih]
        tauto

theorem insertSorted_ascending (h : xs.Pairwise (· < ·)) :
    (insertSorted x xs).Pairwise (· < ·) := by
  induction xs with
  | nil => simp [insertSorted]
  | cons y ys ih =>
    obtain ⟨hy, hys⟩ := List.pairwise_cons.mp h
    unfold insertSorted
    split
    · next hlt =>
      refine List.pairwise_cons.mpr ⟨?_, h⟩
      intro b hb
      rcases List.mem_cons.mp hb with rfl | hb
      · exact hlt
      · exact Int.lt_trans hlt (hy b hb)
    · split
      · exact h
      · next hnlt hne =>
        refine List.pairwise_cons.mpr ⟨?_, ih hys⟩
        intro b hb
        rcases mem_insertSorted.mp hb with rfl | hb
        · omega
        · exact hy b hb

theorem foldl_insertSorted (ys xs : List Int) (h : xs.Pairwise (· < ·)) :
    (ys.foldl (fun xs x => insertSorted x xs) xs).Pairwise (· < ·)
      ∧ ∀ a, a ∈ ys.foldl (fun xs x => insertSorted x xs) xs ↔ a ∈ xs ∨ a ∈ ys := by
  induction ys generalizing xs with
  | nil => exact ⟨h, by simp⟩
  | cons y ys ih =>
    obtain ⟨hasc, hmem⟩ := ih (insertSorted y xs) (insertSorted_ascending h)
    refine ⟨hasc, ?_⟩
    intro a
    rw [List.foldl_cons, hmem, mem_insertSorted, List.mem_cons]
    tauto

/-- The places where a program of `size` words must be cut, as far as later steps rely
    on them: ascending positions of the program, among them every target of a jump
    and every position after a branch. -/
structure Cuts (words : Array Word) (starts : List Int) : Prop where
  ascending : starts.Pairwise (· < ·)
  inside : ∀ x ∈ starts, 0 ≤ x ∧ x < words.size
  target : ∀ (p : Nat) (w : Word) (f : Fields), words[p]? = some w → Fields.decode w = .ok f →
    f.isJump = true → (p : Int) + f.offset + 1 ∈ starts
  branch : ∀ (p : Nat) (w : Word) (f : Fields), words[p]? = some w → Fields.decode w = .ok f →
    f.isBranch = true → p + 1 < words.size → (p : Int) + 1 ∈ starts

theorem leaders_cuts (hwords : NoJumpBefore words) (hb : Listed words words.size b) :
    Cuts words (leaders words.size b) := by
  have hmarks : ∀ x, Marks b x → 0 ≤ x ∧ x < words.size := by
    intro x hx
    obtain ⟨p, f, hp, -, rfl, -⟩ := (hb.marks x).mp hx
    omega
  obtain ⟨hasc, hmem⟩ := foldl_insertSorted
    ((b.jumps ++ (b.calls ++ b.exits).filter fun x => x != (words.size : Int) - 1).map
      (fun x => if x < (words.size : Int) - 1 then x + 1 else x) ++ b.targets.map Prod.fst)
    [] List.Pairwise.nil
  constructor
  · exact hasc
  · intro x hx
    rcases (hmem x).mp hx with hx | hx
    · cases hx
    rcases List.mem_append.mp hx with hx | hx
    · obtain ⟨y, hy, rfl⟩ := List.mem_map.mp hx
      have hy' : Marks b y := by
        rcases List.mem_append.mp hy with hy | hy
        · exact .inl hy
        · have := (List.mem_filter.mp hy).1
          exact .inr (List.mem_append.mp this)
      have hbound := hmarks y hy'
      split <;> omega
    · obtain ⟨p, f, -, ⟨w, hw, hf⟩, rfl, hj⟩ := (hb.targets x).mp hx
      exact ⟨hwords p w f hw hf hj, hb.inside _ hx⟩
  · intro p w f hw hf hj
    refine (hmem _).mpr (.inr (List.mem_append_right _ ?_))
    exact (hb.targets _).mpr ⟨p, f, lt_size hw, ⟨w, hw, hf⟩, rfl, hj⟩
  · intro p w f hw hf hbr hp
    refine (hmem _).mpr (.inr (List.mem_append_left _ ?_))
    have hmark : Marks b p := (hb.marks _).mpr ⟨p, f, lt_size hw, ⟨w, hw, hf⟩, rfl, hbr⟩
    refine List.mem_map.mpr ⟨p, ?_, ?_⟩
    · rcases hmark with h | h | h
      · exact List.mem_append_left _ h
      · refine List.mem_append_right _ (List.mem_filter.mpr ⟨List.mem_append_left _ h, ?_⟩)
        simp only [bne_iff_ne, ne_eq]
        omega
      · refine List.mem_append_right _ (List.mem_filter.mpr ⟨List.mem_append_right _ h, ?_⟩)
        simp only [bne_iff_ne, ne_eq]
        omega
    · rw [if_pos (by omega)]

/-! ## Blocks -/

/-- A block comes before another in the program. A basic block starts strictly after
    everything before it. -/
def Precedes (x y : Block) : Prop :=
  x.start ≤ y.start ∧ (y.kind = .basic → x.start < y.start ∧ x.stop ≤ y.start)

/-- A basic block as it is cut: without instructions and links. -/
def cutBlock (start stop : Int) : Block :=
  { kind := .basic, start, len := stop - start }

/-- The block that stands for a helper. -/
def helperBlock (start : Int) : Block :=
  { kind := .call, start, len := 0 }

@[simp] theorem cutBlock_stop (start stop : Int) : (cutBlock start stop).stop = stop := by
  unfold cutBlock Block.stop
  dsimp only
  omega

@[simp] theorem helperBlock_stop (start : Int) : (helperBlock start).stop = start := by
  unfold helperBlock Block.stop
  dsimp only
  omega

/-- The block at the end of a program of `size` words. -/
def exitAt (size : Nat) : Block :=
  { kind := .exit, start := size, len := 0 }

/-- Blocks that start at the given places and reach up to the next one, or up to
    `size`. -/
structure Spans (size : Nat) (starts : List Int) (blocks : List Block) : Prop where
  cut : ∀ blk ∈ blocks, blk = cutBlock blk.start blk.stop ∨ blk = helperBlock blk.start
  start : ∀ blk ∈ blocks, blk.start ∈ starts
  ordered : blocks.Pairwise Precedes
  basic : ∀ blk ∈ blocks, blk.kind = .basic →
    blk.start < blk.stop ∧ blk.stop ≤ size ∧ ∀ x ∈ starts, x ≤ blk.start ∨ blk.stop ≤ x
  leader : ∀ x ∈ starts, ∃ blk ∈ blocks, blk.kind = .basic ∧ blk.start = x

theorem Spans.nil (size : Nat) : Spans size [] [] :=
  ⟨by simp, by simp, List.Pairwise.nil, by simp, by simp⟩

/-- One more block in front, which ends where the next one starts. -/
theorem Spans.cons {size : Nat} {stop : Int} {blocks : List Block} (hb : Spans size rest blocks)
    (hrest : ∀ y ∈ rest, stop ≤ y) (hstop : stop ≤ size) (hx : x < stop) (call : List Block)
    (hcall : ∀ blk ∈ call, blk = helperBlock x) (hone : call.length ≤ 1) :
    Spans size (x :: rest) (cutBlock x stop :: (call ++ blocks)) := by
  have hlater : ∀ blk ∈ blocks, stop ≤ blk.start := by
    intro blk hblk
    exact hrest _ (hb.start blk hblk)
  -- a block of the list is the first one, that of its helper, or one of the others
  have hcases : ∀ {P : Block → Prop}, P (cutBlock x stop) → P (helperBlock x) →
      (∀ blk ∈ blocks, P blk) → ∀ blk ∈ cutBlock x stop :: (call ++ blocks), P blk := by
    intro P hfirst hhelper hothers blk hblk
    rcases List.mem_cons.mp hblk with rfl | hblk
    · exact hfirst
    · rcases List.mem_append.mp hblk with hblk | hblk
      · rwa [hcall blk hblk]
      · exact hothers blk hblk
  constructor
  · refine hcases (.inl ?_) (.inr rfl) hb.cut
    rw [cutBlock_stop]
    rfl
  · refine hcases List.mem_cons_self List.mem_cons_self ?_
    intro blk hblk
    exact List.mem_cons_of_mem _ (hb.start blk hblk)
  · refine List.pairwise_cons.mpr ⟨?_, List.pairwise_append.mpr ⟨?_, hb.ordered, ?_⟩⟩
    · intro y hy
      rcases List.mem_append.mp hy with hy | hy
      · rw [hcall y hy]
        exact ⟨Int.le_refl _, by simp [helperBlock]⟩
      · have hlt := hlater y hy
        refine ⟨by unfold cutBlock; dsimp only; omega, fun _ => ⟨?_, ?_⟩⟩
        · unfold cutBlock
          dsimp only
          omega
        · rwa [cutBlock_stop]
    · match call, hone with
      | [], _ => exact List.Pairwise.nil
      | [_], _ => exact List.pairwise_singleton _ _
    · intro y hy z hz
      have hlt := hlater z hz
      rw [hcall y hy]
      refine ⟨by unfold helperBlock; dsimp only; omega, fun _ => ⟨?_, ?_⟩⟩
      · unfold helperBlock
        dsimp only
        omega
      · rw [helperBlock_stop]
        omega
  · refine hcases ?_ ?_ ?_
    · intro _
      rw [cutBlock_stop]
      refine ⟨hx, hstop, ?_⟩
      intro y hy
      rcases List.mem_cons.mp hy with rfl | hy
      · exact .inl (Int.le_refl _)
      · exact .inr (hrest y hy)
    · intro hkind
      cases hkind
    · intro blk hblk hkind
      obtain ⟨hlen, hend, hcut⟩ := hb.basic blk hblk hkind
      refine ⟨hlen, hend, ?_⟩
      intro y hy
      rcases List.mem_cons.mp hy with rfl | hy
      · have hlt := hlater blk hblk
        exact .inl (by omega)
      · exact hcut y hy
  · intro y hy
    rcases List.mem_cons.mp hy with rfl | hy
    · exact ⟨_, List.mem_cons_self, rfl, rfl⟩
    · obtain ⟨blk, hblk, hkind, hstart⟩ := hb.leader y hy
      exact ⟨blk, List.mem_cons_of_mem _ (List.mem_append_right _ hblk), hkind, hstart⟩

/-- Blocks that lie end to end from a position to the end of a program. -/
inductive Chain (words : Array Word) : Int → List Block → Prop where
  | exit : Chain words words.size [exitAt words.size]
  | basic {start stop : Int} {rest : List Block} :
    0 ≤ start → start < stop → Chain words stop rest →
    Chain words start (cutBlock start stop :: rest)
  | call {start stop : Int} {rest : List Block} {f : Fields} :
    0 ≤ start → start < stop → WordAt words (stop - 1).toNat f → f.isCall = true →
    Chain words stop rest → Chain words start (cutBlock start stop :: helperBlock start :: rest)

theorem pushFrom_cons (x : Int) (rest : List Int) :
    pushFrom (x :: rest) = (do
      let c ← get
      pushBlock (cutBlock x (rest.headD c.words.size))
      let last ← Fields.decode (← Position.get c.words (rest.headD (c.words.size : Int) - 1))
      if last.isCall then pushBlock (helperBlock x)
      pushFrom rest) := by
  cases rest <;> rfl

theorem runs_pushFrom_cons (h : Runs (pushFrom (x :: rest)) c u d) :
    ∃ call, (call = [] ∨ call = [helperBlock x] ∧ ∃ w f, Fields.decode w = .ok f
        ∧ Position.get c.words (rest.headD (c.words.size : Int) - 1) = .ok w ∧ f.isCall = true)
      ∧ Runs (pushFrom rest)
          { c with blocks := c.blocks ++ (cutBlock x (rest.headD c.words.size) :: call).toArray }
          u d := by
  rw [pushFrom_cons] at h
  simp only [pushBlock, runs_get_bind, runs_modify_bind] at h
  simp only [runs_lift_bind] at h
  obtain ⟨w, hw, last, hlast, h⟩ := h
  by_cases hcall : last.isCall = true
  · simp only [hcall, if_true, runs_modify_bind] at h
    refine ⟨[helperBlock x], .inr ⟨rfl, w, last, hlast, hw, hcall⟩, ?_⟩
    have hpush : ∀ a b : Block, (c.blocks.push a).push b = c.blocks ++ [a, b].toArray := by
      intro a b
      rw [← Array.toList_inj]
      simp
    exact h
  · simp only [hcall] at h
    refine ⟨[], .inl rfl, ?_⟩
    simpa using h

theorem runs_pushFrom {starts : List Int} (h : Runs (pushFrom starts) c u d)
    (hasc : starts.Pairwise (· < ·)) (hin : ∀ x ∈ starts, 0 ≤ x ∧ x < c.words.size) :
    ∃ new, d = { c with blocks := c.blocks ++ new.toArray } ∧ Spans c.words.size starts new
      ∧ Chain c.words (starts.headD c.words.size) (new ++ [exitAt c.words.size]) := by
  induction starts generalizing c with
  | nil =>
    obtain ⟨_, rfl⟩ := runs_pure.mp h
    exact ⟨[], by simp, Spans.nil _, .exit⟩
  | cons x rest ih =>
    obtain ⟨hx, hrest⟩ := List.pairwise_cons.mp hasc
    obtain ⟨call, hcall, h⟩ := runs_pushFrom_cons h
    obtain ⟨new, rfl, hnew, hchain⟩ := ih h hrest fun y hy => hin y (by simp [hy])
    obtain ⟨hx0, hxn⟩ := hin x (by simp)
    have hstop : x < rest.headD c.words.size ∧ rest.headD c.words.size ≤ c.words.size
        ∧ ∀ y ∈ rest, rest.headD (c.words.size : Int) ≤ y := by
      cases rest with
      | nil => exact ⟨hxn, by simp, by simp⟩
      | cons z zs =>
        refine ⟨hx z (by simp), Int.le_of_lt (hin z (by simp)).2, ?_⟩
        intro y hy
        rcases List.mem_cons.mp hy with rfl | hy
        · exact Int.le_refl _
        · exact Int.le_of_lt ((List.pairwise_cons.mp hrest).1 y hy)
    obtain ⟨hlt, hle, hnext⟩ := hstop
    rcases hcall with rfl | ⟨rfl, w, f, hf, hw, hcall⟩
    · refine ⟨_, ?_, hnew.cons hnext hle hlt [] (by simp) (by simp), .basic hx0 hlt hchain⟩
      simp
    · rw [Position.get_of_nonneg (by omega)] at hw
      refine ⟨_, ?_, hnew.cons hnext hle hlt [_] (by simp) (by simp),
        .call hx0 hlt ⟨w, hw, hf⟩ hcall hchain⟩
      simp [Array.append_assoc]

/-- The program is cut where it has to be, and at its start if it is cut at all. -/
theorem runs_findBlocks (h : Runs findBlocks c u d) (hc : c.blocks = #[Block.entry])
    (hcuts : Cuts c.words (leaders c.words.size c.branches)) :
    ∃ starts middle, Cuts c.words starts ∧ Spans c.words.size starts middle
      ∧ (if leaders c.words.size c.branches = [] then middle = []
        else Chain c.words 0 (middle ++ [exitAt c.words.size]))
      ∧ d = { c with
        blocks := (Block.entry :: (middle ++ [exitAt c.words.size])).toArray } := by
  unfold findBlocks pushBlock at h
  rw [runs_get_bind] at h
  cases hs : leaders c.words.size c.branches with
  | nil =>
    rw [hs] at h hcuts
    simp only [runs_pure_bind, pushFrom, runs_modify] at h
    refine ⟨[], [], hcuts, Spans.nil _, rfl, ?_⟩
    rw [h, hc]
    rfl
  | cons first rest =>
    rw [hs] at h hcuts
    by_cases hfirst : 0 < first
    · simp only [hfirst, if_true, runs_modify_bind] at h
      obtain ⟨_, s, hpush, h⟩ := runs_bind.mp h
      obtain ⟨new, rfl, hnew, hchain⟩ := runs_pushFrom hpush hcuts.ascending hcuts.inside
      obtain ⟨hleast, _⟩ := List.pairwise_cons.mp hcuts.ascending
      have hbelow : ∀ x ∈ first :: rest, first ≤ x := by
        intro x hx
        rcases List.mem_cons.mp hx with rfl | hx
        · exact Int.le_refl _
        · exact Int.le_of_lt (hleast x hx)
      refine ⟨0 :: first :: rest, _, ?_, hnew.cons hbelow ?_ hfirst [] (by simp) (by simp),
        .basic (Int.le_refl 0) hfirst hchain, ?_⟩
      · constructor
        · refine List.pairwise_cons.mpr ⟨?_, hcuts.ascending⟩
          intro x hx
          exact Int.lt_of_lt_of_le hfirst (hbelow x hx)
        · intro x hx
          rcases List.mem_cons.mp hx with rfl | hx
          · have hin := hcuts.inside first List.mem_cons_self
            omega
          · exact hcuts.inside x hx
        · intro p w f hw hf hj
          exact List.mem_cons_of_mem _ (hcuts.target p w f hw hf hj)
        · intro p w f hw hf hb hp
          exact List.mem_cons_of_mem _ (hcuts.branch p w f hw hf hb hp)
      · exact Int.le_of_lt (hcuts.inside first List.mem_cons_self).2
      · rw [runs_modify.mp h, hc]
        simp [exitAt, cutBlock]
    · simp only [hfirst, if_false] at h
      obtain ⟨_, s, hpush, h⟩ := runs_bind.mp h
      obtain ⟨new, rfl, hnew, hchain⟩ := runs_pushFrom hpush hcuts.ascending hcuts.inside
      have hzero : first = 0 := by
        have := hcuts.inside first List.mem_cons_self
        omega
      refine ⟨first :: rest, new, hcuts, hnew, hzero ▸ hchain, ?_⟩
      rw [runs_modify.mp h, hc]
      simp [exitAt]

end BpfLanes.Flow
