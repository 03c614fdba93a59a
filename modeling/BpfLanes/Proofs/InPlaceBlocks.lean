import BpfLanes.Proofs.NextUses

/-! # Blocks that overwrite registers in place

When an instruction writes a register that was written before in its block, and
also reads it, the value before it is used last by that instruction: the walk that
looks up the last use ends there.
-/

namespace BpfLanes

open Compilation BpfLanes.Flow Dependence

variable {a : Instr} {r : Int} {o : Operand}

theorem Instr.writes_iff : a.writes r = true ↔ ∃ o, a.output = some o ∧ o.register = r := by
  unfold Instr.writes
  cases a.output with
  | none => simp
  | some o => simp

/-- What overwrites a register that the block wrote before also reads it. -/
def InPlace (body : List Instr) : Prop :=
  ∀ (r : Int) (i k : Nat) (a x : Instr), i < k → body[i]? = some a → a.writes r = true →
    body[k]? = some x → x.writes r = true → x.reads r = true

theorem inPlace_iff {body : List Instr} :
    InPlace body ↔ ∀ k ∈ List.range body.length, ∀ i ∈ List.range k, ∀ a ∈ body[i]?,
      ∀ x ∈ body[k]?, ∀ o ∈ a.output, x.writes o.register = true → x.reads o.register = true := by
  constructor
  · intro h k _ i hi a ha x hx o ho hw
    exact h o.register i k a x (List.mem_range.mp hi) ha (Instr.writes_iff.mpr ⟨o, ho, rfl⟩) hx hw
  · intro h r i k a x hik ha hw hx hwx
    obtain ⟨o, ho, rfl⟩ := Instr.writes_iff.mp hw
    have hlen : k < body.length := (List.getElem?_eq_some_iff.mp hx).1
    exact h k (List.mem_range.mpr hlen) i (List.mem_range.mpr hik) a ha x hx o ho hwx

instance (body : List Instr) : Decidable (InPlace body) :=
  decidable_of_iff _ inPlace_iff.symm

theorem Instr.writes_unique {r' : Int} (h : a.writes r = true) (h' : a.writes r' = true) :
    r = r' := by
  obtain ⟨o, ho, rfl⟩ := writes_iff.mp h
  obtain ⟨o', ho', rfl⟩ := writes_iff.mp h'
  rw [ho] at ho'
  cases ho'
  rfl

/-! ## Instructions that write the same register -/

variable {body : List Instr} {i k y p : Nat} {x : Instr}

theorem exists_last_writer (hik : i < k) (ha : body[i]? = some a) (hw : a.writes r = true) :
    ∃ y, i ≤ y ∧ y < k ∧ (∃ a', body[y]? = some a' ∧ a'.writes r = true) ∧
      ∀ l a', y < l → l < k → body[l]? = some a' → a'.writes r = false := by
  induction hn : k - i using Nat.strongRecOn generalizing i a with
  | ind n ih =>
    by_cases hlater : ∃ l a', i < l ∧ l < k ∧ body[l]? = some a' ∧ a'.writes r = true
    · obtain ⟨l, a', hil, hlk, ha', hw'⟩ := hlater
      obtain ⟨y, hly, hrest⟩ := ih (k - l) (by omega) hlk ha' hw' rfl
      exact ⟨y, by omega, hrest⟩
    · refine ⟨i, Nat.le_refl i, hik, ⟨a, ha, hw⟩, ?_⟩
      intro l a' hil hlk ha'
      cases hwrites : a'.writes r with
      | false => rfl
      | true => exact absurd ⟨l, a', hil, hlk, ha', hwrites⟩ hlater

theorem InPlace.feeds (h : InPlace body) (hik : i < k) (ha : body[i]? = some a)
    (hw : a.writes r = true) (hx : body[k]? = some x) (hwx : x.writes r = true) :
    ∃ y, i ≤ y ∧ Feeds body r y k := by
  obtain ⟨y, hiy, hyk, ⟨a', ha', hw'⟩, hbetween⟩ := exists_last_writer hik ha hw
  have hreads := h r y k a' x hyk ha' hw' hx hwx
  exact ⟨y, hiy, hyk, ⟨a', ha', hw'⟩, ⟨x, hx, hreads⟩, hbetween⟩

/-- Between an instruction and the one it feeds, the next instruction that touches the
    register reads it. -/
theorem Dependence.Feeds.readNext (h : Feeds body r y k) (hyp : y ≤ p) (hpk : p < k) :
    ∃ t a', Liveness.ReadNext (body.drop (p + 1)) r t a' ∧ body[p + 1 + t]? = some a' ∧
      p + 1 + t ≤ k := by
  obtain ⟨x, hx, hreads⟩ := h.reader
  have hlen : k < body.length := (List.getElem?_eq_some_iff.mp hx).1
  -- induction on the distance to the reader: the next instruction reads the register, or
  -- leaves it alone
  induction hn : k - p using Nat.strongRecOn generalizing p with
  | ind n ih =>
    have hnext : body[p + 1]? = some body[p + 1] := List.getElem?_eq_getElem (by omega)
    have hdrop : (body.drop (p + 1))[0]? = some body[p + 1] := by
      rwa [List.getElem?_drop]
    by_cases hr : body[p + 1].reads r = true
    · refine ⟨0, body[p + 1], ⟨hdrop, hr, ?_⟩, hnext, by omega⟩
      intro m a' hm
      exact absurd hm (by omega)
    · have hne : p + 1 ≠ k := by
        rintro rfl
        rw [hnext] at hx
        cases hx
        exact hr hreads
      have hw := h.between (p + 1) _ (by omega) (by omega) hnext
      obtain ⟨t, a', hread, hat, hle⟩ := ih (k - (p + 1)) (by omega) (by omega) (by omega) rfl
      refine ⟨t + 1, a', ⟨?_, hread.reads, ?_⟩, ?_, by omega⟩
      · rw [List.getElem?_drop, ← hat]
        congr 1
        omega
      · intro m b hm hb
        cases m with
        | zero =>
          rw [hdrop] at hb
          cases hb
          exact ⟨by simpa using hr, hw⟩
        | succ m =>
          refine hread.untouched m b (by omega) ?_
          rw [List.getElem?_drop] at hb ⊢
          rw [← hb]
          congr 1
          omega
      · rw [← hat]
        congr 1
        omega

/-! ## The last use of a value -/

namespace Schedule

section
variable {Q : Instr → Prop} {words : Array Word} {c d e : Compilation} {b : Nat} {blk : Block}
  {l : Option Int}
variable (hc : Laid Q words c) (hb : c.blocks[b]? = some blk) (hkind : blk.kind = .basic)
include hc hb hkind

theorem stop_eq : 0 ≤ blk.start ∧ blk.stop = blk.start + blk.body.size := by
  have hspan := hc.cut.span b blk hb hkind
  have hsize := (hc.holds b blk hb hkind).size
  unfold Block.stop at hspan ⊢
  omega

section
variable (ha : (c.bodyOf blk)[k]? = some a)
include ha

theorem bodyOf_position :
    a.position = some ((blk.start.toNat + k : Nat) : Int) := by
  rw [hc.bodyOf_getElem? hb hkind] at ha
  obtain ⟨id, hid, ha⟩ := Option.bind_eq_some_iff.mp ha
  obtain ⟨i, hi, hstands, _⟩ := (hc.holds b blk hb hkind).instr k id hid
  rw [ha] at hi
  cases hi
  exact hstands.position

theorem SameBody.instr_eq (hsame : SameBody c d blk) {id : Nat} {i : Instr}
    (hi : InstrAt d blk k id i) : i = a := by
  obtain ⟨hid, hi⟩ := hi
  rw [Position.get_natCast] at hid
  rw [hsame id (Array.mem_of_getElem? hid)] at hi
  rw [hc.bodyOf_getElem? hb hkind, hid] at ha
  exact Option.mem_unique hi ha

theorem index_lt_of_bodyOf : k < blk.body.size := by
  rw [← hc.bodyOf_length hb hkind]
  exact (List.getElem?_eq_some_iff.mp ha).1

/-- A block whose instructions are those of `c` and can be looked up by position. -/
structure Findable (c : Compilation) (b : Nat) (blk : Block) (d : Compilation) : Prop where
  blocks : d.blocks = c.blocks
  same : SameBody c d blk
  place : ∀ k : Nat, k < blk.body.size →
    ∃ pl, placeIn d blk k = some pl ∧ pl.block = some (b : Int)

theorem Findable.instrOf (h : Findable c b blk d)
    (hrun : Runs (instrOf ((blk.start.toNat + k : Nat) : Int)) d x e) : x = a := by
  obtain ⟨pl, hpl, hplb⟩ := h.place k (index_lt_of_bodyOf hc hb hkind ha)
  obtain ⟨⟨pl', b', blk', n, hpl', hb', hblk', hn, id, hid, hx⟩, _⟩ := runs_instrOf.mp hrun
  unfold placeIn at hpl
  rw [Position.get_natCast, hpl] at hpl'
  cases hpl'
  rw [hplb] at hb'
  cases hb'
  rw [Position.get_natCast, h.blocks, hb] at hblk'
  cases hblk'
  rw [h.same.bodyOf] at hn
  obtain ⟨hlt, hpos, _⟩ := List.findIdx?_eq_some_iff_getElem.mp hn
  have hn' : (c.bodyOf blk)[n]? = some (c.bodyOf blk)[n] := List.getElem?_eq_getElem hlt
  have hposn := bodyOf_position hc hb hkind hn'
  rw [hposn] at hpos
  have heq : n = k := by
    simp only [beq_iff_eq, Option.some.injEq] at hpos
    omega
  subst heq
  exact h.same.instr_eq hc hb hkind ha ⟨hid, hx⟩

end

theorem not_call_inside (ha : (c.bodyOf blk)[p]? = some a) (hp : p + 1 < blk.body.size)
    {f : Fields} (hf : Fields.decode a.word = .ok f) : f.isCall = false := by
  rw [hc.bodyOf_getElem? hb hkind] at ha
  obtain ⟨id, hid, ha⟩ := Option.bind_eq_some_iff.mp ha
  cases hcall : f.isCall with
  | false => rfl
  | true =>
    have hbranch : f.isBranch = true := (isBranch_iff f).mpr (by simp [hcall])
    have hlast := hc.branchLast hb hkind p f (by omega) (by omega)
      ⟨id, a, ⟨Position.get_natCast.mpr hid, ha⟩, hf⟩ hbranch
    omega

variable (hnext : NextUses c blk) (hfeeds : Feeds (c.bodyOf blk) r y k)
include hnext hfeeds

theorem Findable.walk (h : Findable c b blk d) (hx : (c.bodyOf blk)[k]? = some x)
    (hwx : x.writes r = true) (hyp : y < p) (hpk : p ≤ k) (ha : (c.bodyOf blk)[p]? = some a)
    (hreads : a.reads r = true) {fuel : Nat}
    (hrun : Runs (LastUse.walk r fuel ((blk.start.toNat + p : Nat) : Int)) d l e) :
    l = some ((blk.start.toNat + k : Nat) : Int) := by
  induction fuel generalizing p a with
  | zero => exact absurd hrun runs_throw
  | succ fuel ih =>
    obtain ⟨i, d', hi, hrest⟩ := runs_bind.mp hrun
    obtain ⟨_, rfl⟩ := runs_instrOf.mp hi
    obtain rfl := h.instrOf hc hb hkind ha hi
    rw [runs_lift_bind] at hrest
    obtain ⟨hop, hhop, hrest⟩ := hrest
    obtain ⟨f, hf, hhop⟩ := bind_eq_ok.mp hhop
    have hpos := bodyOf_position hc hb hkind ha
    by_cases heq : p = k
    · subst heq
      rw [hx] at ha
      cases ha
      rw [hwx, Bool.true_or, if_pos rfl] at hhop
      cases hhop
      obtain ⟨rfl, _⟩ := runs_pure.mp hrest
      exact hpos
    · have hsize := index_lt_of_bodyOf hc hb hkind hx
      have hw := hfeeds.between p i hyp (by omega) ha
      have hcall := not_call_inside hc hb hkind ha (by omega) hf
      rw [hw, hcall, Bool.or_false, if_neg (by simp)] at hhop
      -- the walk goes to the next instruction that reads the register, or stays
      obtain ⟨t, a', hread, hat, hle⟩ := hfeeds.readNext (Nat.le_of_lt hyp) (by omega)
      have hpos' := bodyOf_position hc hb hkind hat
      rcases hnext.hop ha hreads hw hpos hread hpos' with hnow | hnow
      · rw [hnow] at hhop
        cases hhop
        exact ih (by omega) hle hat hread.reads hrest
      · rw [hnow] at hhop
        cases hhop
        exact ih hyp hpk ha hreads hrest

theorem nextUse_of_feeds (ha : (c.bodyOf blk)[y]? = some a) (ho : a.output = some o)
    (hr : o.register = r) :
    ∃ p a', y < p ∧ p ≤ k ∧ (c.bodyOf blk)[p]? = some a' ∧ a'.reads r = true ∧
      o.nextUse = some ((blk.start.toNat + p : Nat) : Int) := by
  subst hr
  obtain ⟨t, a', hread, hat, hle⟩ := hfeeds.readNext (Nat.le_refl y) hfeeds.lt
  have huse := hnext.output ha ho hread
  rw [bodyOf_position hc hb hkind hat] at huse
  exact ⟨y + 1 + t, a', by omega, hle, hat, hread.reads, huse⟩

theorem Findable.lastUse (h : Findable c b blk d) (hx : (c.bodyOf blk)[k]? = some x)
    (hwx : x.writes r = true) (ha : (c.bodyOf blk)[y]? = some a) (ho : a.output = some o)
    (hr : o.register = r) (hrun : Runs (LastUse.find o.nextUse r) d l e) :
    l = some ((blk.start.toNat + k : Nat) : Int) := by
  obtain ⟨p, a', hyp, hpk, ha', hreads, huse⟩ := nextUse_of_feeds hc hb hkind hnext hfeeds ha ho hr
  unfold LastUse.find at hrun
  rw [huse, runs_get_bind] at hrun
  exact h.walk hc hb hkind hnext hfeeds hx hwx hyp hpk ha' hreads hrun

end

end Schedule
end BpfLanes
