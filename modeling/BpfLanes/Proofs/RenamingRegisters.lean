import BpfLanes.Proofs.ListSchedule

/-! # Which registers a renaming changes

Renaming a value changes what one instruction writes and what those that read from it
read, but never what the last instruction of the block reads. So what an instruction
reads is renamed only before it is placed, and what it writes only when it is placed;
the branch of a block stays as it was parsed until then.
-/

namespace BpfLanes

open Compilation BpfLanes.Flow

variable {words : Array Word} {i j : Instr} {R' : Instr → Instr → Prop} {Q : Instr → Prop}
  {new old : Int}

/-! ## One instruction -/

/-- What relates two instructions is true when one writes another register. -/
def OutputFree (R : Instr → Instr → Prop) : Prop :=
  ∀ old new i j, old ≠ new → i.Rewrites old new j → R i j

/-- What is known of an instruction stays true when it reads another register. -/
def InputFree (R : Instr → Instr → Prop) : Prop :=
  ∀ old new i₀ i j, R i₀ i → i.Rereads old new j → R i₀ j

theorem Instr.Rewrites.word (h : i.Rewrites old new j) :
    Word.setTarget i.word new = .ok j.word := by
  cases h <;> assumption

theorem Instr.Rewrites.output (h : i.Rewrites old new j) :
    ∃ o, i.output = some o ∧ o.register = old := by
  cases h with
  | stuck hnew ho hold hw htext => exact ⟨_, ho, hold⟩
  | done hnew ho hold hw => exact ⟨_, ho, hold⟩

/-- Some inputs of an instruction were renamed, one after the other. -/
def Instr.Reread : Instr → Instr → Prop :=
  Relation.ReflTransGen fun i j => ∃ old new, i.Rereads old new j

/-- What an instruction writes was renamed, or nothing was. -/
inductive Instr.Rewritten (i : Instr) : Instr → Prop where
  | kept : Rewritten i i
  | renamed {old new : Int} {j : Instr} (hne : old ≠ new) (h : i.Rewrites old new j) : Rewritten i j

/-! ## An instruction that stays as it was -/

/-- The instruction with number `x` in the store is related to what it was in `s`. -/
structure Stays (R : Instr → Instr → Prop) (x : Nat) (s t : Compilation) : Prop where
  blocks : t.blocks = s.blocks
  instr : ∀ i, s.store[x]? = some i → ∃ j, t.store[x]? = some j ∧ R i j

variable {R : Instr → Instr → Prop} {x b k id : Nat} {s c c₀ d e : Compilation} {blk : Block}
  {g : Digraph} {lastRow : Int} {order done rest : List Int} {r r' : Reach}

theorem Stays.of_same (hrefl : ∀ i, R i i) (hblocks : d.blocks = c.blocks)
    (hstore : d.store[x]? = c.store[x]?) : Stays R x c d :=
  ⟨hblocks, fun i hi => ⟨i, by rw [hstore]; exact hi, hrefl i⟩⟩

theorem Stays.congr (h : Stays R x c d) (hblocks : e.blocks = d.blocks) (hstore : e.store = d.store) :
    Stays R x c e :=
  ⟨hblocks.trans h.blocks, fun i hi => by rw [hstore]; exact h.instr i hi⟩

theorem Stays.trans {R'' : Instr → Instr → Prop} (h : Stays R x c d) (h' : Stays R' x d e)
    (htrans : ∀ i j k, R i j → R' j k → R'' i k) : Stays R'' x c e := by
  refine ⟨h'.blocks.trans h.blocks, fun i hi => ?_⟩
  obtain ⟨j, hj, hij⟩ := h.instr i hi
  obtain ⟨k, hk, hjk⟩ := h'.instr j hj
  exact ⟨k, hk, htrans i j k hij hjk⟩

theorem Stays.setInstr (h : Stays R' x s c) (hi : c.store[id]? = some i)
    (hle : ∀ i₀ i, R' i₀ i → R i₀ i) (hj : id = x → ∀ i₀, R' i₀ i → R i₀ j) :
    Stays R x s { c with store := c.store.setIfInBounds id j } := by
  refine ⟨h.blocks, fun i₀ hi₀ => ?_⟩
  obtain ⟨k, hk, hrel⟩ := h.instr i₀ hi₀
  by_cases heq : id = x
  · subst heq
    obtain rfl := Option.mem_unique hi hk
    have hlt := lt_size hi
    exact ⟨j, Array.getElem?_setIfInBounds_self_of_lt hlt, hj rfl i₀ hrel⟩
  · exact ⟨k, (Array.getElem?_setIfInBounds_ne heq).trans hk, hle _ _ hrel⟩

theorem Attempted.stays {g : Digraph} {n row : Int} {used : List Int}
    (h : Attempted blk g n row used s c) (hrefl : ∀ i, R i i)
    (hused : ∀ id i o, Schedule.InstrAt s blk n id i → i.output = some o → o.register ∈ used)
    (hout : Position.get blk.body n = .ok x → OutputFree R)
    (hin : ∀ m, (n, m) ∈ g.edges → m ≠ (blk.body.size : Int) - 1 →
      Position.get blk.body m = .ok x → InputFree R) : Stays R x s c := by
  induction h with
  | unchanged => exact .of_same hrefl rfl rfl
  | recorded h _ _ _ ih => exact ih.congr rfl rfl
  | edited hnew h =>
    induction h with
    | writer hid hi hj =>
      have hself : Stays (· = ·) x s s := .of_same (fun _ => rfl) rfl rfl
      refine hself.setInstr hi (fun i₀ _ h => h ▸ hrefl i₀) fun heq i₀ h => ?_
      obtain ⟨o, ho, rfl⟩ := hj.output
      have hmem := hused _ _ o ⟨hid, hi⟩ ho
      refine h ▸ hout (heq ▸ hid) _ _ _ _ ?_ hj
      rintro rfl
      exact (Renaming.freeRegister_spec hnew).2 hmem
    | reader h hm hid hi hj ih =>
      refine ih.setInstr hi (fun _ _ h => h) fun heq i₀ hrel => ?_
      exact hin _ hm.1 hm.2 (heq ▸ hid) _ _ i₀ _ _ hrel hj

namespace Schedule

/-! ## Placing an instruction -/

theorem Opened.stays (ho : Opened c c₀ b blk g lastRow order)
    (hd : Partly c₀ b blk g lastRow order done r d) (horder : order = done ++ (k : Int) :: rest)
    (hrefl : ∀ i, R i i) (hout : blk.body[k]? = some x → OutputFree R)
    (hin : ∀ m : Nat, ((k : Int), (m : Int)) ∈ g.edges → m + 1 ≠ blk.body.size →
      blk.body[m]? = some x → InputFree R)
    (h : Runs (placeInstr b blk g lastRow r k) d r' e) : Stays R x d e := by
  have hb := ho.block_eq hd
  obtain ⟨_, y, s₀, s, hfind, houtput, _, _, _, hput, -⟩ := ho.inserted hd horder h
  obtain ⟨_, _, z, _, hcleared, hcase⟩ :=
    cleared_of_placeOutput hd.tabled hb ho.basic ho.last (ho.edges.entryFirst k) hfind houtput
  -- what is in the way may be renamed here and in later instructions; the rest renames nothing
  have hz : Stays R x d z := by
    rcases hcleared.attempted hd.tabled hb ho.basic with
      ⟨_, rfl⟩ | ⟨i, v, z, _, hv, hz, rfl, _⟩
    · exact .of_same hrefl rfl rfl
    refine (hz.stays hrefl ?_ ?_ ?_).congr rfl rfl
    · intro id' i' o' hi' ho'
      obtain ⟨o, hout, _, hconflict⟩ := hv.needed
      obtain rfl := hv.instr_unique hi'
      obtain rfl := Option.mem_unique hout ho'
      exact LiveRanges.mem_taken_of_conflict hconflict
    · exact fun hget => hout (Position.get_natCast.mp hget)
    · intro m hedge hne hget
      have hlt : (k : Int) < m := ho.edges.ascend _ hedge
      obtain ⟨m', rfl⟩ := Int.eq_ofNat_of_zero_le (show 0 ≤ m by omega)
      exact hin m' hedge (by omega) (Position.get_natCast.mp hget)
  have hy : Stays R x d y := by
    rcases hcase with ⟨rfl, _⟩ | ⟨_, _, _, _, _, _, _, hrecord⟩
    · exact hz
    · obtain ⟨_, _, _, _, _, _, _, rfl⟩ := runs_recordOutput hrecord
      exact hz.congr rfl rfl
  apply hy.congr
  · rw [hput.rest]
  · rw [hput.rest]

/-- Instruction `k` of a block before it is placed: only what it reads was renamed, and not
    even that if it is the last one. -/
def Unplaced (blk : Block) (k : Nat) (i j : Instr) : Prop :=
  i.Reread j ∧ (k + 1 = blk.body.size → j = i)

/-- Instruction `k` of a block at any time: what it writes may have been renamed last. -/
def Reworked (blk : Block) (k : Nat) (i j : Instr) : Prop :=
  ∃ m, Unplaced blk k i m ∧ m.Rewritten j

section
variable (hc : Laid Q words c) (ho : Opened c c₀ b blk g lastRow order)
  (hd : Partly c₀ b blk g lastRow order done r d)
include hc ho hd

/-- An instruction that was placed stays as it is: all that is renamed later on comes later
    in the block. -/
theorem Opened.settled_step (hx : blk.body[k]? = some x) (hmem : (k : Int) ∈ done) {m : Nat}
    (horder : order = done ++ (m : Int) :: rest)
    (h : Runs (placeInstr b blk g lastRow r m) d r' e) : Stays (· = ·) x d e := by
  have hlt := ((ho.places.mem_done horder).mp hmem).2
  refine ho.stays hd horder (fun _ => rfl) ?_ ?_ h
  · intro hm
    have := hc.index_eq ho.block ho.basic hx hm
    omega
  · intro m' hm' _ hx'
    have := ho.edges.ascend _ hm'
    have := hc.index_eq ho.block ho.basic hx hx'
    omega

/-- What an instruction reads is renamed only before it is placed, what it writes only when
    it is placed, and nothing after that. -/
theorem Opened.history (hx : blk.body[k]? = some x) :
    ((k : Int) ∉ done → Stays (Unplaced blk k) x c₀ d) ∧ Stays (Reworked blk k) x c₀ d := by
  have hindex : ∀ m, blk.body[m]? = some x → m = k := fun _ => hc.index_eq ho.block ho.basic hx
  have hself : ∀ i, Unplaced blk k i i := fun i => ⟨.refl, fun _ => rfl⟩
  obtain ⟨r₀, rfl, hrun⟩ := hd.run
  refine (ho.induct (fun done _ d => ((k : Int) ∉ done → Stays (Unplaced blk k) x c₀ d) ∧
    Stays (Reworked blk k) x c₀ d) hd.listed hrun ?_ ?_).2
  · exact ⟨fun _ => .of_same hself rfl rfl, .of_same (fun i => ⟨i, hself i, .kept⟩) rfl rfl⟩
  rintro done m rest r₁ d r₂ d' hsplit hd ⟨hbefore, hany⟩ hr
  by_cases hmem : (k : Int) ∈ done
  · -- it was placed already
    refine ⟨fun hnot => absurd (List.mem_append_left _ hmem) hnot, ?_⟩
    exact hany.trans (ho.settled_step hc hd hx hmem hsplit hr) fun _ _ _ h heq => heq ▸ h
  by_cases heq : m = k
  · -- it is placed now
    subst heq
    have hown : Stays Instr.Rewritten x d d' := by
      refine ho.stays hd hsplit (fun _ => .kept) (fun _ => ?_) ?_ hr
      · exact fun old new i j hne hj => .renamed hne hj
      · intro m' hm' _ hx'
        have := ho.edges.ascend _ hm'
        have := hindex m' hx'
        omega
    refine ⟨fun hnot => absurd (by simp) hnot, ?_⟩
    exact (hbefore hmem).trans hown fun _ j _ h hj => ⟨j, h, hj⟩
  · -- another one is placed, whose value it may read
    have hread : Stays (Unplaced blk k) x d d' := by
      refine ho.stays hd hsplit hself (fun hm => absurd (hindex m hm) heq) ?_ hr
      intro m' _ hne hx' old new i₀ i j hi hj
      obtain rfl := hindex m' hx'
      exact ⟨hi.1.tail ⟨old, new, hj⟩, fun hlast => absurd hlast hne⟩
    have htrans : ∀ i j l, Unplaced blk k i j → Unplaced blk k j l → Unplaced blk k i l :=
      fun i j l h h' => ⟨h.1.trans h'.1, fun hlast => (h'.2 hlast).trans (h.2 hlast)⟩
    exact ⟨fun _ => (hbefore hmem).trans hread htrans,
      (hbefore hmem).trans hread fun i j l h h' => ⟨l, htrans i j l h h', .kept⟩⟩

theorem Opened.branch_kept (horder : order = done ++ (k : Int) :: rest) {f : Fields}
    (hf : FieldsAt c blk k f) (hbranch : f.isBranch = true) (hj : InstrAt d blk k x j) :
    InstrAt c blk k x j ∧ Fields.decode j.word = .ok f := by
  have hk := ho.index_lt horder
  have hlast := hc.branchLast ho.block ho.basic k f (by omega) (by omega) hf hbranch
  obtain ⟨id, i, hi, hdecode⟩ := hf
  obtain rfl := Except.ok.inj (hj.1.symm.trans hi.1)
  have hid := Position.get_natCast.mp hi.1
  have hi₀ : c₀.store[x]? = some i := (ho.same x (Array.mem_of_getElem? hid)).trans hi.2
  have hnew := ho.places.not_mem_done horder
  obtain ⟨j', hj', hrel⟩ := ((ho.history hc hd hid).1 hnew).instr i hi₀
  obtain rfl := Option.mem_unique hj' hj.2
  obtain rfl := hrel.2 (by omega)
  exact ⟨hi, hdecode⟩

end

end Schedule
end BpfLanes
