import BpfLanes.Proofs.MoveFusion
import BpfLanes.Proofs.SlotTable

/-! # What a fused exit returns

A constant result and the exit after it become one exit that returns the constant.
The exit by itself returns what is in register 0, and the constant may have gone to
any register: the block returns the same as before exactly if it went to register 0,
or if register 0 held that value anyway.
-/

namespace BpfLanes.Fusion

open Compilation BpfLanes.Flow
open Word (Proper unpacked)

variable {f g : Fields} {pre : List Word} {q : Nat} {x : Site} {M V : Type} {w w' : Word}

/-! ## Returned values -/

/-- Setting a register to a constant puts its value there. -/
def SetsConstants (step : Meaning V M) (value : Int → V) : Prop :=
  ∀ w f m, Fields.decode w = .ok f → f.isMoveImmediate = true →
    step w m = m.put f.dst (value f.immediate)

/-- What is returned when words are run up to the first exit: the constant of an exit
    that has one, and else what is in register 0. Words without an exit return nothing. -/
def returned (step : Meaning V M) (value : Int → V) : List Word → Machine V M → Option V
  | [], _ => none
  | w :: words, m =>
    match Fields.decode w with
    | .ok f =>
      if f.isMoveExit then some (value f.immediate)
      else if f.isExit then some (m.registers 0)
      else returned step value words (step w m)
    | .error _ => returned step value words (step w m)

/-- A word that is no exit. -/
def Stays (w : Word) : Prop := ∀ f, Fields.decode w = .ok f → f.isExit = false

theorem isExit_of_isMoveExit (h : f.isMoveExit = true) : f.isExit = true := by
  have hopcode : f.opcode = Opcode.moveExit := by simpa [Fields.isMoveExit] using h
  rw [Fields.isExit, hopcode]
  decide

variable {step : Meaning V M} {value : Int → V}

theorem returned_cons_of_stays (h : Stays w) (words : List Word) (m : Machine V M) :
    returned step value (w :: words) m = returned step value words (step w m) := by
  rw [returned]
  split
  · next f hf =>
    have hexit := h f hf
    rw [if_neg (fun hmove => by simp [isExit_of_isMoveExit hmove] at hexit), hexit]
    rfl
  · rfl

theorem returned_append (h : ∀ w ∈ pre, Stays w) (words : List Word) (m : Machine V M) :
    returned step value (pre ++ words) m = returned step value words (run step pre m) := by
  induction pre generalizing m with
  | nil => rfl
  | cons w pre ih =>
    rw [List.cons_append, returned_cons_of_stays (h w List.mem_cons_self),
      ih fun v hv => h v (List.mem_cons_of_mem w hv)]
    rfl

theorem returned_cons_of_exit (hf : Fields.decode w = .ok f) (hexit : f.isExit = true)
    (words : List Word) (m : Machine V M) : returned step value (w :: words) m =
      some (if f.isMoveExit then value f.immediate else m.registers 0) := by
  rw [returned, hf]
  dsimp only
  rw [if_pos hexit]
  split <;> rfl

/-! ## Exits of a block -/

theorem not_result_of_fuse_moves {v : Word} (hw : Proper w) (hw' : Proper w')
    (hjoins : Kind.moves.joins (unpacked w) (unpacked w') = true)
    (hv : v = (Kind.moves.fuse (unpacked w) (unpacked w')).1 ∨
      v = (Kind.moves.fuse (unpacked w) (unpacked w')).2) :
    (unpacked v).isExit = false ∧ (unpacked v).isMoveImmediate = false := by
  rcases hv with rfl | rfl
  · exact (by decide : (unpacked Word.nop).isExit = false ∧
      (unpacked Word.nop).isMoveImmediate = false)
  · simp only [Kind.joins, Bool.and_eq_true, beq_iff_eq] at hjoins
    obtain ⟨o, ho, hmem⟩ := Fields.isFusible_iff.mp hjoins.1.2
    have hall : ∀ e ∈ Opcode.fusedForms, Opcode.exits.contains e.2 = false
        ∧ (e.2 == Opcode.moveImmediate) = false := by decide
    rw [← (Word.decode_eq_ok_iff.mp (decode_fuse_moves hw hw' ho)).2]
    exact hall _ hmem

/-- Words that end in a constant result and an exit, after the words `pre`. -/
def EndsInResult (words pre : List Word) (f g : Fields) : Prop :=
  ∃ w w', words = pre ++ [w, w'] ∧ Fields.decode w = .ok f ∧ Fields.decode w' = .ok g
    ∧ f.isMoveImmediate = true ∧ g.isExit = true

section
variable {words : Array Word} {done : List (Kind × Block)} {c d : Compilation} {blk : Block}
variable (h : Reached words done c d) (hwords : NoJumpBefore words) (hblk : blk ∈ c.blocks)
include h hwords hblk

theorem Reached.basic (hlen : 0 < blk.len.toNat) : blk.kind = .basic := by
  obtain ⟨target, options, texts, hcut⟩ := h.cut
  rcases basic_or_unfilled (Optimize.uncut_start hwords) hcut hblk with hkind | ⟨hzero, _⟩
  · exact hkind
  · rw [hzero] at hlen
    cases hlen

theorem Reached.start_nonneg (hlen : 0 < blk.len.toNat) : 0 ≤ blk.start := by
  obtain ⟨b, hb⟩ := Array.mem_iff_getElem?.mp hblk
  exact ((h.laid hwords).1.cut.span b blk hb (h.basic hwords hblk hlen)).1

theorem Reached.exit_last (hlow : blk.start.toNat ≤ q)
    (hhigh : q < blk.start.toNat + blk.len.toNat) (hw : words[q]? = some w)
    (hf : Fields.decode w = .ok f) (hexit : f.isExit = true) :
    q + 1 = blk.start.toNat + blk.len.toNat := by
  obtain ⟨hlaid, _⟩ := h.laid hwords
  obtain ⟨b, hb⟩ := Array.mem_iff_getElem?.mp hblk
  have hkind := h.basic hwords hblk (by omega)
  obtain ⟨hstart, hlt, _⟩ := hlaid.cut.span b blk hb hkind
  by_contra hne
  have hno := hlaid.cut.branch b blk q w f hb hkind (by omega) (by unfold Block.stop; omega) hw hf
  rw [(isBranch_iff f).mpr (.inr (.inr hexit))] at hno
  cases hno

theorem Reached.eq_of_inside {blk' : Block} (hblk' : blk' ∈ c.blocks)
    (hq : blk.start.toNat ≤ q ∧ q < blk.start.toNat + blk.len.toNat)
    (hq' : blk'.start.toNat ≤ q ∧ q < blk'.start.toNat + blk'.len.toNat) : blk = blk' := by
  obtain ⟨hlaid, _⟩ := h.laid hwords
  obtain ⟨b, hb⟩ := Array.mem_iff_getElem?.mp hblk
  obtain ⟨b', hb'⟩ := Array.mem_iff_getElem?.mp hblk'
  have hkind := h.basic hwords hblk (by omega)
  have hkind' := h.basic hwords hblk' (by omega)
  have hspan := hlaid.cut.span b blk hb hkind
  have hspan' := hlaid.cut.span b' blk' hb' hkind'
  -- of two blocks the first one ends before the other starts
  rcases Nat.lt_trichotomy b b' with hlt | rfl | hlt
  · have hafter := hlaid.cut.disjoint hb hb' hkind hkind' hlt
    unfold Block.stop at hafter hspan hspan'
    omega
  · exact Option.mem_unique hb hb'
  · have hafter := hlaid.cut.disjoint hb' hb hkind' hkind hlt
    unfold Block.stop at hafter hspan hspan'
    omega

section
variable (hnew : (Kind.exits, blk) ∉ done) (hlow : blk.start.toNat ≤ q)
  (hhigh : q < blk.start.toNat + blk.len.toNat)
include hnew hlow hhigh

theorem Reached.kind_of_covers (hx : x ∈ done.flatMap fun y => y.1.pairsIn words y.2)
    (hxq : x.Covers q) :
    x.kind = .moves := by
  obtain ⟨y, hy, hx⟩ := List.mem_flatMap.mp hx
  obtain ⟨hkind, hlow', hhigh', _⟩ := Kind.mem_pairsIn.mp hx
  unfold Site.Covers at hxq
  have hsame := h.eq_of_inside hwords hblk (h.blocks y hy) ⟨hlow, hhigh⟩ ⟨by omega, by omega⟩
  cases hk : x.kind with
  | moves => rfl
  | exits =>
    have hpair : y = (Kind.exits, blk) := by rw [hsame, ← hk, hkind]
    exact absurd (hpair ▸ hy) hnew

theorem Reached.source_of_result (hw : d.words[q]? = some w)
    (hresult : (unpacked w).isExit = true ∨ (unpacked w).isMoveImmediate = true) :
    words[q]? = some w := by
  obtain ⟨_, hsource⟩ := h.laid hwords
  have hpast := (h.fused hwords).words
  rw [hsource] at hpast
  have hpairs : ∀ x ∈ done.flatMap fun y => y.1.pairsIn words y.2,
      (x.fused? words).isSome = true := by
    intro x hx
    obtain ⟨y, _, hx⟩ := List.mem_flatMap.mp hx
    obtain ⟨_, _, _, hab⟩ := Kind.mem_pairsIn.mp hx
    exact Option.isSome_iff_exists.mpr hab
  rcases rewrite_origin rfl hpairs q with hold | ⟨x, hx, ab, hab, hxq, hwritten⟩
  · rwa [← hold, ← hpast]
  exfalso
  -- the word was written for a copy and an operation, and is neither of the two
  have hkind := h.kind_of_covers hwords hblk hnew hlow hhigh hx hxq
  obtain ⟨y, hy, hx⟩ := List.mem_flatMap.mp hx
  obtain ⟨_, hlow', hhigh', _⟩ := Kind.mem_pairsIn.mp hx
  have hparsed := h.parsed hwords (h.blocks y hy)
  obtain ⟨v, v', hv, hv', hjoins, rfl⟩ := Site.fused?_eq_some_iff.mp hab
  rw [hkind] at hjoins hwritten
  rw [← hpast, hw] at hwritten
  have hno := not_result_of_fuse_moves (hparsed.proper hlow' (by omega) hv)
    (hparsed.proper (by omega) hhigh' hv') hjoins (v := w) (by
      rw [Option.some.inj hwritten]
      split
      · exact .inl rfl
      · exact .inr rfl)
  rcases hresult with hexit | hmove
  · rw [hno.1] at hexit
    cases hexit
  · rw [hno.2] at hmove
    cases hmove

end

section
variable (hx : x ∈ Kind.exits.pairsIn words blk)
include hx

theorem Reached.pair_kept (hnew : (Kind.exits, blk) ∉ done) (hxq : x.Covers q) :
    d.words[q]? = words[q]? := by
  obtain ⟨_, hsource⟩ := h.laid hwords
  obtain ⟨hkind, hlow, hhigh, ab, hab⟩ := Kind.mem_pairsIn.mp hx
  rw [(h.fused hwords).words, hsource]
  apply getElem?_rewrite_of_not_covers
  intro y hy hyq
  have hq : blk.start.toNat ≤ q ∧ q < blk.start.toNat + blk.len.toNat := by
    unfold Site.Covers at hxq
    omega
  -- a pair that shares a word with this one is this one, but of the other kind
  have hmoves := h.kind_of_covers hwords hblk hnew hq.1 hq.2 hy hyq
  obtain ⟨z, _, hy⟩ := List.mem_flatMap.mp hy
  obtain ⟨_, _, _, cd, hcd⟩ := Kind.mem_pairsIn.mp hy
  rw [Site.eq_of_covers hcd hab hyq hxq, hkind] at hmoves
  cases hmoves

/-! ## The end of a block -/

theorem Reached.position_of_pair :
    x.position + 2 = blk.start.toNat + blk.len.toNat := by
  obtain ⟨hkind, hlow, hhigh, ab, hab⟩ := Kind.mem_pairsIn.mp hx
  obtain ⟨w, w', _, hw', hjoins, _⟩ := Site.fused?_eq_some_iff.mp hab
  rw [hkind] at hjoins
  simp only [Kind.joins, Bool.and_eq_true] at hjoins
  have hproper := (h.parsed hwords hblk).proper (by omega) hhigh hw'
  have hlast := h.exit_last hwords hblk (by omega) hhigh hw' (Word.decode_proper hproper) hjoins.2
  omega

theorem Reached.pairsIn_eq :
    Kind.exits.pairsIn words blk = [x] := by
  have hsame : ∀ y ∈ Kind.exits.pairsIn words blk, y = x := by
    intro y hy
    have hposition := h.position_of_pair hwords hblk hy
    have hposition' := h.position_of_pair hwords hblk hx
    have hkind := (Kind.mem_pairsIn.mp hy).1.trans (Kind.mem_pairsIn.mp hx).1.symm
    exact Site.ext hkind (by omega)
  rw [← List.perm_singleton, List.perm_ext_iff_of_nodup Kind.nodup_pairsIn (List.nodup_singleton x)]
  intro y
  rw [List.mem_singleton]
  exact ⟨hsame y, fun hy => hy ▸ hx⟩

end

theorem Reached.pair_of_ends (hnew : (Kind.exits, blk) ∉ done)
    (hend : EndsInResult (wordsOf d blk) pre f g) :
    Kind.exits.pairsIn words blk = [⟨.exits, blk.start.toNat + pre.length⟩]
      ∧ Site.fused? words ⟨.exits, blk.start.toNat + pre.length⟩ = some (Kind.exits.fuse f g) := by
  obtain ⟨w, w', hlist, hf, hg, hmove, hexit⟩ := hend
  obtain ⟨hproper, rfl⟩ := Word.decode_eq_ok_iff.mp hf
  obtain ⟨hproper', rfl⟩ := Word.decode_eq_ok_iff.mp hg
  have hget : ∀ (n : Nat) (v : Word), (pre ++ [w, w'])[n]? = some v →
      n < blk.len.toNat ∧ d.words[blk.start.toNat + n]? = some v := by
    intro n v hv
    rw [← hlist, (h.still_parsed hwords hblk).getElem?_wordsOf (h.size hwords)] at hv
    split at hv
    · next hn => exact ⟨hn, hv⟩
    · cases hv
  obtain ⟨hn, hw⟩ := hget pre.length w (by simp)
  obtain ⟨hn', hw'⟩ := hget (pre.length + 1) w' (by simp)
  have hfirst := h.source_of_result hwords hblk hnew (by omega) (by omega) hw (.inr hmove)
  have hsecond := h.source_of_result hwords hblk hnew (by omega) (by omega) hw' (.inl hexit)
  have hfused : Site.fused? words ⟨.exits, blk.start.toNat + pre.length⟩ =
      some (Kind.exits.fuse (unpacked w) (unpacked w')) :=
    Site.fused?_eq_some_iff.mpr ⟨w, w', hfirst, hsecond, by simp [Kind.joins, hmove, hexit], rfl⟩
  refine ⟨h.pairsIn_eq hwords hblk (Kind.mem_pairsIn.mpr ?_), hfused⟩
  exact ⟨rfl, Nat.le_add_right _ _, by dsimp only; omega, _, hfused⟩

theorem Reached.ends_of_pair (hnew : (Kind.exits, blk) ∉ done)
    (hx : x ∈ Kind.exits.pairsIn words blk) : ∃ pre f g, EndsInResult (wordsOf d blk) pre f g := by
  have hparsed := h.still_parsed hwords hblk
  have hget := hparsed.getElem?_wordsOf (h.size hwords)
  have hposition := h.position_of_pair hwords hblk hx
  obtain ⟨hkind, hlow, hhigh, ab, hab⟩ := Kind.mem_pairsIn.mp hx
  obtain ⟨w, w', hw, hw', hjoins, _⟩ := Site.fused?_eq_some_iff.mp hab
  rw [hkind] at hjoins
  simp only [Kind.joins, Bool.and_eq_true] at hjoins
  obtain ⟨n, hn⟩ : ∃ n, x.position = blk.start.toNat + n := ⟨x.position - blk.start.toNat, by omega⟩
  refine ⟨(wordsOf d blk).take n, unpacked w, unpacked w', w, w', ?_,
    Word.decode_proper (hparsed.proper hlow (by omega) hw),
    Word.decode_proper (hparsed.proper (by omega) hhigh hw'), hjoins.1, hjoins.2⟩
  -- the words at `n` and `n + 1` are the pair, and there is none at `n + 2`
  have hfirst := hget n
  have hsecond := hget (n + 1)
  have hend := hget (n + 2)
  rw [if_pos (by omega), ← hn, h.pair_kept hwords hblk hx hnew (.inl rfl), hw] at hfirst
  rw [if_pos (by omega), ← Nat.add_assoc, ← hn, h.pair_kept hwords hblk hx hnew (.inr rfl),
    hw'] at hsecond
  rw [if_neg (by omega), List.getElem?_eq_none_iff] at hend
  obtain ⟨hlt, hfirst⟩ := List.getElem?_eq_some_iff.mp hfirst
  obtain ⟨hlt', hsecond⟩ := List.getElem?_eq_some_iff.mp hsecond
  have hdrop : (wordsOf d blk).drop n = [w, w'] := by
    rw [List.drop_eq_getElem_cons hlt, List.drop_eq_getElem_cons hlt', hfirst, hsecond,
      List.drop_eq_nil_of_le hend]
  rw [← hdrop, List.take_append_drop]

theorem Reached.stays (hnew : (Kind.exits, blk) ∉ done) {rest : List Word}
    (hlist : wordsOf d blk = pre ++ rest) (hrest : rest ≠ []) : ∀ w ∈ pre, Stays w := by
  intro w hw f hf
  by_contra hexit
  rw [Bool.not_eq_false] at hexit
  obtain ⟨_, rfl⟩ := Word.decode_eq_ok_iff.mp hf
  have hget := (h.still_parsed hwords hblk).getElem?_wordsOf (h.size hwords)
  obtain ⟨n, hn⟩ := List.mem_iff_getElem?.mp hw
  obtain ⟨hlt, _⟩ := List.getElem?_eq_some_iff.mp hn
  have hword := hget n
  rw [hlist, List.getElem?_append_left hlt, hn] at hword
  split at hword
  · next hlen =>
    have hsource := h.source_of_result hwords hblk hnew (by omega) (by omega) hword.symm
      (.inl hexit)
    have hlast := h.exit_last hwords hblk (by omega) (by omega) hsource hf hexit
    -- but there is a word behind it
    obtain ⟨v, rest, rfl⟩ := List.exists_cons_of_ne_nil hrest
    have hnext := hget pre.length
    rw [hlist, if_neg (by omega)] at hnext
    simp at hnext
  · cases hword

end

theorem returned_iff (hstep : SetsConstants step value) (hpre : ∀ v ∈ pre, Stays v)
    (hf : Fields.decode w = .ok f) (hg : Fields.decode w' = .ok g)
    (hmove : f.isMoveImmediate = true) (hexit : g.isExit = true) (m : Machine V M) :
    returned step value
        (pre ++ [{ f with opcode := Opcode.moveExit, src := 0 }.encode, Word.nop]) m
        = some (value f.immediate)
      ∧ (some (value f.immediate) = returned step value (pre ++ [w, w']) m ↔
        if g.isMoveExit then value g.immediate = value f.immediate
        else f.dst = 0 ∨ (run step pre m).registers 0 = value f.immediate) := by
  have hreduced : f.reduced = f := by
    obtain ⟨hproper, rfl⟩ := Word.decode_eq_ok_iff.mp hf
    exact Word.reduced_unpacked hproper
  have hfused : Fields.decode { f with opcode := Opcode.moveExit, src := 0 }.encode =
      .ok { f with opcode := Opcode.moveExit, src := 0 } :=
    Fields.decode_retagged hreduced (by decide) (by decide)
  have hstays : Stays w := by
    intro f' hf'
    obtain rfl := Except.ok.inj (hf.symm.trans hf')
    have hopcode : f.opcode = Opcode.moveImmediate := by simpa [Fields.isMoveImmediate] using hmove
    rw [Fields.isExit, hopcode]
    decide
  constructor
  · rw [returned_append hpre, returned_cons_of_exit hfused rfl]
    rfl
  rw [returned_append hpre, returned_cons_of_stays hstays, returned_cons_of_exit hg hexit,
    hstep w f _ hf hmove, Option.some.injEq]
  split
  · exact eq_comm
  · show _ = (if 0 = f.dst then value f.immediate else (run step pre m).registers 0) ↔ _
    by_cases hdst : f.dst = 0
    · rw [if_pos hdst.symm]
      exact iff_of_true rfl (.inl hdst)
    · rw [if_neg (Ne.symm hdst), eq_comm]
      exact ⟨.inr, fun h => h.resolve_left hdst⟩

/-- Fusing the exits of a block for the first time rewrites it exactly if it ends in a
    constant result and an exit. The block then returns the constant, and this is what
    it returned before exactly if the constant was the result: if the exit returned a
    constant of its own, that has to be the same, and otherwise the constant went to
    register 0 or was there already. -/
theorem fused_exit_keeps_result_iff {words : Array Word} (hwords : NoJumpBefore words)
    {done : List (Kind × Block)} {c d e : Compilation} (hd : Reached words done c d) {blk : Block}
    (hblk : blk ∈ c.blocks) (hnew : (Kind.exits, blk) ∉ done)
    (hrun : Runs (fuseExits blk) d () e) :
    ((∀ pre f g, ¬ EndsInResult (wordsOf d blk) pre f g) → e = d)
      ∧ ∀ pre f g, EndsInResult (wordsOf d blk) pre f g →
        wordsOf e blk = pre ++ [{ f with opcode := Opcode.moveExit, src := 0 }.encode, Word.nop]
        ∧ e.fusedExits = d.fusedExits + 1
        ∧ (∀ q : Nat, (q : Int) ≠ blk.stop - 2 → (q : Int) ≠ blk.stop - 1 →
          e.words[q]? = d.words[q]? ∧ e.texts[q]? = d.texts[q]?)
        ∧ ∀ (V M : Type) (step : Meaning V M) (value : Int → V), SetsConstants step value → ∀ m,
          returned step value (wordsOf e blk) m = some (value f.immediate)
          ∧ (returned step value (wordsOf e blk) m = returned step value (wordsOf d blk) m ↔
            if g.isMoveExit then value g.immediate = value f.immediate
            else f.dst = 0 ∨ (run step pre m).registers 0 = value f.immediate) := by
  have hparsed := hd.still_parsed hwords hblk
  have hpass : Fused words (Kind.exits.pairsIn words blk) d e := runs_pass hparsed hrun
  constructor
  · intro hnone
    have hempty : Kind.exits.pairsIn words blk = [] := by
      rw [List.eq_nil_iff_forall_not_mem]
      intro x hx
      obtain ⟨pre, f, g, hend⟩ := hd.ends_of_pair hwords hblk hnew hx
      exact hnone pre f g hend
    rw [hempty] at hpass
    exact hpass.eq_of_nil
  · intro pre f g hend
    obtain ⟨hpairs, hfused⟩ := hd.pair_of_ends hwords hblk hnew hend
    rw [hpairs] at hpass
    obtain ⟨w, w', hlist, hf, hg, hmove, hexit⟩ := hend
    have hlast := hd.position_of_pair hwords hblk (hpairs ▸ List.mem_singleton_self _)
    dsimp only at hlast
    have hafter : wordsOf e blk =
        pre ++ [{ f with opcode := Opcode.moveExit, src := 0 }.encode, Word.nop] := by
      have hparsed' : Parsed words e blk := hparsed.congr (by rw [hpass.rest])
      have hsize : e.words.size = words.size := by
        rw [hpass.words, size_rewrite, hd.size hwords]
      rw [hparsed'.wordsOf_eq hsize, hpass.words, rewrite_cons, rewrite, List.foldl_nil,
        stretch_write hfused rfl, ← hparsed.wordsOf_eq (hd.size hwords), hlist]
      simp [Kind.fuse]
    refine ⟨hafter, hpass.exits, ?_, ?_⟩
    · intro q hq hq'
      have hcovers : ∀ x ∈ [(⟨.exits, blk.start.toNat + pre.length⟩ : Site)], ¬ x.Covers q := by
        intro x hx
        rw [List.mem_singleton.mp hx]
        have hstart := hd.start_nonneg hwords hblk (by omega)
        unfold Site.Covers
        unfold Block.stop at hq hq'
        dsimp only
        omega
      refine ⟨?_, hpass.texts q hcovers⟩
      rw [hpass.words]
      exact getElem?_rewrite_of_not_covers hcovers
    · intro V M step value hstep m
      have hstays := hd.stays hwords hblk hnew hlist (by simp)
      obtain ⟨hreturned, hiff⟩ := returned_iff hstep hstays hf hg hmove hexit m
      rw [hafter, hreturned, hlist]
      exact ⟨rfl, hiff⟩

/-- A meaning in which only constants are set. -/
def constantMeaning {V M : Type} (value : Int → V) : Meaning V M := fun w m =>
  match Fields.decode w with
  | .error _ => m
  | .ok f => if f.isMoveImmediate then m.put f.dst (value f.immediate) else m

theorem constantMeaning_sets (value : Int → V) :
    SetsConstants (constantMeaning (M := M) value) value := by
  intro w f m hf hmove
  unfold constantMeaning
  rw [hf]
  exact if_pos hmove

/-- A constant in register 0 before one exit, and one in register 1 before another. -/
def twoResults : Array Word :=
  #[0x1501020000000000, 0xb700000002000000, 0x9500000000000000, 0xb701000005000000,
    0x9500000000000000]

/-- The first exit returns what it did before it was fused. The second one returns 5,
    where it returned the 2 in register 0. -/
theorem fused_exit_keeps_result_iff_twoResults :
    ∃ (done : List (Kind × Block)) (c d e e' : Compilation) (blk blk' : Block),
      NoJumpBefore twoResults ∧ Reached twoResults done c d ∧ blk ∈ c.blocks ∧ blk' ∈ c.blocks
        ∧ (Kind.exits, blk) ∉ done ∧ (Kind.exits, blk') ∉ done
        ∧ Runs (fuseExits blk) d () e ∧ Runs (fuseExits blk') d () e'
        ∧ (∀ m : Machine Int Unit, returned (constantMeaning id) id (wordsOf e blk) m =
          returned (constantMeaning id) id (wordsOf d blk) m)
        ∧ ∀ m : Machine Int Unit, m.registers 0 = 2 →
          returned (constantMeaning id) id (wordsOf e' blk') m = some 5
          ∧ returned (constantMeaning id) id (wordsOf d blk') m ≠ some 5 := by
  obtain ⟨s, hs⟩ : ∃ s, s = start {} {} twoResults (twoResults.map fun _ => "") := ⟨_, rfl⟩
  obtain ⟨c, hc⟩ : ∃ c, c = stateAfter analyse s := ⟨_, rfl⟩
  obtain ⟨d, hd⟩ : ∃ d, d = stateAfter ((c.blocks.toList.map (Prod.mk Kind.moves)).forM
    fun x => x.1.pass x.2) c := ⟨_, rfl⟩
  have hreached := Reached.of_finishes .moves hs (by rw [hs]; decide +kernel) hc
    (by rw [hc, hs]; decide +kernel) hd
  have hblocks : (∃ blk, blk ∈ c.blocks[2]? ∧ finishes (fuseExits blk) d = true
        ∧ wordsOf d blk = [0xb700000002000000, 0x9500000000000000])
      ∧ ∃ blk, blk ∈ c.blocks[3]? ∧ finishes (fuseExits blk) d = true
        ∧ wordsOf d blk = [0xb701000005000000, 0x9500000000000000] := by
    rw [hd, hc, hs]
    decide +kernel
  obtain ⟨⟨blk, hblk, hfinishes, hlist⟩, blk', hblk', hfinishes', hlist'⟩ := hblocks
  have hnew : ∀ b, (Kind.exits, b) ∉ c.blocks.toList.map (Prod.mk Kind.moves) := by
    intro b hb
    obtain ⟨_, _, hpair⟩ := List.mem_map.mp hb
    cases hpair
  have hwords : NoJumpBefore twoResults := by decide +kernel
  have hrun := runs_after hfinishes
  have hrun' := runs_after hfinishes'
  have hmem : blk ∈ c.blocks := Array.mem_of_getElem? hblk
  have hmem' : blk' ∈ c.blocks := Array.mem_of_getElem? hblk'
  obtain ⟨_, _, _, hkeeps⟩ :=
    (fused_exit_keeps_result_iff hwords hreached hmem (hnew blk) hrun).2 [] ⟨0xb7, 0, 0, 0, 2⟩
      ⟨0x95, 0, 0, 0, 0⟩ ⟨_, _, hlist, by decide, by decide, rfl, rfl⟩
  obtain ⟨_, _, _, hloses⟩ :=
    (fused_exit_keeps_result_iff hwords hreached hmem' (hnew blk') hrun').2 [] ⟨0xb7, 1, 0, 0, 5⟩
      ⟨0x95, 0, 0, 0, 0⟩ ⟨_, _, hlist', by decide, by decide, rfl, rfl⟩
  refine ⟨_, c, d, _, _, blk, blk', hwords, hreached, hmem, hmem', hnew blk, hnew blk', hrun,
    hrun', ?_, ?_⟩
  · intro m
    obtain ⟨_, hiff⟩ := hkeeps Int Unit _ _ (constantMeaning_sets id) m
    exact hiff.mpr (Or.inl rfl)
  · intro m hm
    obtain ⟨hreturned, hiff⟩ := hloses Int Unit _ _ (constantMeaning_sets id) m
    refine ⟨hreturned, ?_⟩
    intro hsame
    rcases hiff.mp (hreturned.trans hsame.symm) with hdst | hheld
    · exact absurd hdst (by decide)
    · have hheld : m.registers 0 = 5 := hheld
      omega

end BpfLanes.Fusion
