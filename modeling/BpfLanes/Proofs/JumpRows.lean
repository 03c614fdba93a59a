import BpfLanes.Proofs.ScheduleSound

/-! # Jumps that count rows

Once a program stands in rows, the jumps in the first lane are made to count rows:
to the row of the leader of the block they lead to, which is the last instruction of
that block. Jumps in other lanes are left as they were. So a jump lands in the first
row of its target block exactly if it stands in the first lane and the leader stands
in that row, or stands in another lane and its old offset happens to be right.
-/

namespace BpfLanes

open Compilation BpfLanes.Flow

variable {blk : Block} {d s : Compilation} {f : Fields} {i : Instr} {new old : List Char}
  {p : Option Int} {u : Unit}

/-! ## Texts -/

/-- The characters of a number. -/
def Numeric (cs : List Char) : Prop :=
  cs ≠ [] ∧ ∀ c ∈ cs, c.isDigit = true ∨ c = '-'

theorem numeric_toString (a : Int) : Numeric (toString a).toList := by
  have hnat : ∀ n : Nat, Numeric n.repr.toList := by
    intro n
    rw [Nat.toList_repr]
    refine ⟨Nat.toDigits_ne_nil, ?_⟩
    intro c hc
    exact .inl (Nat.isDigit_of_mem_toDigits (by decide) (by decide) hc)
  rw [Int.toString_eq_repr, Int.repr_eq_if]
  split
  · exact hnat _
  · rw [String.toList_append]
    refine ⟨by simp, ?_⟩
    intro c hc
    rcases List.mem_append.mp hc with hc | hc
    · exact .inr (by simpa using hc)
    · exact (hnat _).2 c hc

namespace Search

theorem replaceFrom_of_plain {s : List Char} (hold : Numeric old)
    (hs : ∀ c ∈ s, ¬ (c.isDigit = true ∨ c = '-')) : replaceFrom old new 0 s = s := by
  induction s with
  | nil => rfl
  | cons c s ih =>
    have hstart : startsWith (c :: s) old = false := by
      cases old with
      | nil => exact absurd rfl hold.1
      | cons o old =>
        have hne : c ≠ o := by
          rintro rfl
          exact hs c (by simp) (hold.2 c (by simp))
        simp [startsWith, hne]
    rw [replaceFrom, if_neg (by simp [hstart]), ih fun c' hc' => hs c' (by simp [hc'])]

theorem eq_of_replaceFrom_plain {s : List Char} (hnew : Numeric new)
    (hs : ∀ c ∈ replaceFrom old new 0 s, ¬ (c.isDigit = true ∨ c = '-')) :
    replaceFrom old new 0 s = s := by
  induction s with
  | nil => rfl
  | cons c s ih =>
    rw [replaceFrom] at hs ⊢
    split at hs
    · obtain ⟨hne, hall⟩ := hnew
      obtain ⟨d, new, rfl⟩ := List.exists_cons_of_ne_nil hne
      exact absurd (hall d (by simp)) (hs d (by simp))
    · next hstart =>
      rw [if_neg hstart, ih fun c' hc' => hs c' (by simp [hc'])]

theorem replace_eq_nop_iff (a b : Int) (s : String) :
    replace (toString a) (toString b) s = "NOP" ↔ s = "NOP" := by
  have hplain : ∀ c ∈ "NOP".toList, ¬ (c.isDigit = true ∨ c = '-') := by simp
  unfold replace
  split
  · exact Iff.rfl
  constructor
  · intro h
    have hlist : replaceFrom (toString a).toList (toString b).toList 0 s.toList = "NOP".toList := by
      rw [← h, String.toList_ofList]
    have hsame := eq_of_replaceFrom_plain (numeric_toString b) (hlist ▸ hplain)
    rw [hlist] at hsame
    exact (String.toList_inj.mp hsame).symm
  · rintro rfl
    rw [replaceFrom_of_plain (numeric_toString a) hplain, String.ofList_toList]

end Search

/-! ## Instructions with a new offset -/

/-- The same instruction up to its offset and the text of it. -/
structure Instr.SameButOffset (i j : Instr) : Prop where
  position : j.position = i.position
  jumpsTo : j.jumpsTo = i.jumpsTo
  operands : j.inputs = i.inputs ∧ j.output = i.output
  text : j.text = "NOP" ↔ i.text = "NOP"
  fields : ∀ f, Fields.decode i.word = .ok f →
    ∃ o, Fields.decode j.word = .ok { f with offset := o }
  plain : ∀ f, Fields.decode i.word = .ok f → f.isJump = false → j.word = i.word

theorem Instr.SameButOffset.refl (i : Instr) : i.SameButOffset i :=
  ⟨rfl, rfl, ⟨rfl, rfl⟩, Iff.rfl, fun f hf => ⟨f.offset, hf⟩, fun _ _ _ => rfl⟩

theorem Instr.SameButOffset.trans {j k : Instr} (h : i.SameButOffset j) (h' : j.SameButOffset k) :
    i.SameButOffset k := by
  refine ⟨h'.position.trans h.position, h'.jumpsTo.trans h.jumpsTo,
    ⟨h'.operands.1.trans h.operands.1, h'.operands.2.trans h.operands.2⟩,
    h'.text.trans h.text, ?_, ?_⟩
  · intro f hf
    obtain ⟨o, ho⟩ := h.fields f hf
    obtain ⟨o', ho'⟩ := h'.fields _ ho
    exact ⟨o', ho'⟩
  · intro f hf hplain
    have hword := h.plain f hf hplain
    exact (h'.plain f (hword ▸ hf) hplain).trans hword

/-- A jump with a new offset, in its word and in its text. -/
theorem Instr.sameButOffset_of_setOffset {o : Int} {w : Word} (hf : Fields.decode i.word = .ok f)
    (hjump : f.isJump = true) (hw : Word.setOffset i.word o = .ok w) :
    i.SameButOffset { i with
      word := w, text := Search.replace (toString f.offset) (toString o) i.text } ∧
      Fields.decode w = .ok { f with offset := o } := by
  obtain ⟨hproper, rfl⟩ := Word.decode_eq_ok_iff.mp hf
  obtain ⟨hproper', hunpacked⟩ := Word.setOffset_spec hproper hw
  have hdecode := Word.decode_eq_ok_iff.mpr ⟨hproper', hunpacked.symm⟩
  refine ⟨⟨rfl, rfl, ⟨rfl, rfl⟩, Search.replace_eq_nop_iff _ _ _, ?_, ?_⟩, hdecode⟩
  · intro f' hf'
    cases hf.symm.trans hf'
    exact ⟨o, hdecode⟩
  · intro f' hf' hplain
    cases hf.symm.trans hf'
    rw [hjump] at hplain
    cases hplain

namespace Jumps

/-- Only offsets of instructions differ from `d`. -/
structure Retargeted (d s : Compilation) : Prop where
  size : s.store.size = d.store.size
  same : ∀ (id : Nat) (i : Instr), d.store[id]? = some i →
    ∃ j, s.store[id]? = some j ∧ i.SameButOffset j
  rest : s = { d with store := s.store }

theorem Retargeted.map_eq {β : Type} {φ : Instr → β} (h : Retargeted d s)
    (hφ : ∀ i j, i.SameButOffset j → φ j = φ i) (id : Nat) :
    s.store[id]?.map φ = d.store[id]?.map φ := by
  cases hi : d.store[id]? with
  | none =>
    have hge : s.store.size ≤ id := by
      rw [h.size]
      exact Array.getElem?_eq_none_iff.mp hi
    rw [Array.getElem?_eq_none hge]
  | some i =>
    obtain ⟨j, hj, hsame⟩ := h.same id i hi
    rw [hj, Option.map_some, Option.map_some, hφ i j hsame]

/-! ## Leaders -/

/-- Instruction `i` is the leader of a block: the last one with a text other than "NOP", or
    the first one if there is none. -/
def IsLeader (c : Compilation) (blk : Block) (i : Instr) : Prop :=
  ∃ pre post, c.bodyOf blk = pre ++ i :: post ∧ (i.text ≠ "NOP" ∨ pre = []) ∧
    ∀ j ∈ post, j.text = "NOP"

theorem IsLeader.unique {j : Instr} (hi : IsLeader d blk i) (hj : IsLeader d blk j) : i = j := by
  -- nothing behind a leader is another one
  have hone : ∀ {i j : Instr} {pre pre' post post' l : List Instr}, pre' = pre ++ l →
      i :: post = l ++ j :: post' → (j.text ≠ "NOP" ∨ pre' = []) →
      (∀ x ∈ post, x.text = "NOP") → i = j := by
    intro i j pre pre' post post' l hpre hsplit hlast hquiet
    cases l with
    | nil => exact (List.cons.inj hsplit).1
    | cons x l =>
      obtain ⟨-, rfl⟩ := List.cons.inj hsplit
      rcases hlast with htext | hnil
      · exact absurd (hquiet j (by simp)) htext
      · simp [hpre] at hnil
  obtain ⟨pre, post, hbody, hlast, hquiet⟩ := hi
  obtain ⟨pre', post', hbody', hlast', hquiet'⟩ := hj
  rcases List.append_eq_append_iff.mp (hbody.symm.trans hbody') with ⟨l, hpre, hl⟩ | ⟨l, hpre, hl⟩
  · exact hone hpre hl hlast' hquiet
  · exact (hone hpre hl hlast hquiet').symm

theorem isLeader_of_runs (h : Runs (leader blk) s p d) :
    d = s ∧ ∃ i, IsLeader s blk i ∧ i.position = p := by
  unfold leader at h
  obtain ⟨id, first, hid, hfirst, h⟩ := runs_instrAt_bind.mp h
  rw [runs_body_bind] at h
  obtain ⟨rfl, rfl⟩ := runs_pure.mp h
  refine ⟨rfl, ?_⟩
  obtain ⟨rest, hrest⟩ : ∃ rest, d.bodyOf blk = first :: rest := by
    have hhead : blk.body.toList.head? = some id := by
      simpa [List.head?_eq_getElem?] using (Position.get_of_nonneg (Int.le_refl 0)).mp hid
    obtain ⟨ids, hids⟩ := List.head?_eq_some_iff.mp hhead
    exact ⟨_, by rw [bodyOf, hids, List.filterMap_cons_some hfirst]⟩
  unfold IsLeader
  rw [hrest]
  clear hrest
  induction rest using List.reverseRecOn with
  | nil => exact ⟨first, ⟨[], [], rfl, .inr rfl, nofun⟩, by simp⟩
  | append_singleton rest x ih =>
    rw [← List.cons_append, List.foldl_concat]
    split
    · next htext => exact ⟨x, ⟨first :: rest, [], rfl, .inl (by simpa using htext), nofun⟩, rfl⟩
    · next htext =>
      obtain ⟨i, ⟨pre, post, hbody, hlast, hquiet⟩, hp⟩ := ih
      refine ⟨i, ⟨pre, post ++ [x], by rw [hbody]; simp, hlast, ?_⟩, hp⟩
      exact List.forall_mem_append.mpr
        ⟨hquiet, List.forall_mem_singleton.mpr (by simpa using htext)⟩

/-- What an instruction says about the leader of its block. -/
def leads (i : Instr) : Option Int × Bool := (i.position, i.text != "NOP")

theorem Retargeted.leads (h : Retargeted d s) :
    (s.bodyOf blk).map leads = (d.bodyOf blk).map leads := by
  unfold bodyOf
  rw [List.map_filterMap, List.map_filterMap]
  refine List.filterMap_congr fun id _ => h.map_eq (fun i j hsame => ?_) id
  have htext : (j.text != "NOP") = (i.text != "NOP") := by
    rw [Bool.eq_iff_iff]
    simp [hsame.text]
  rw [Jumps.leads, hsame.position, htext, Jumps.leads]

theorem IsLeader.of_leads (hi : IsLeader d blk i)
    (h : (s.bodyOf blk).map leads = (d.bodyOf blk).map leads) :
    ∃ j, IsLeader s blk j ∧ j.position = i.position := by
  obtain ⟨pre, post, hbody, hlast, hquiet⟩ := hi
  rw [hbody, List.map_append, List.map_cons] at h
  obtain ⟨pre', _, hbody', hpre, hrest⟩ := List.map_eq_append_iff.mp h
  obtain ⟨j, post', rfl, hj, hpost⟩ := List.map_eq_cons_iff.mp hrest
  obtain ⟨hposition, htext⟩ := Prod.mk.inj hj
  refine ⟨j, ⟨pre', post', hbody', ?_, fun x hx => ?_⟩, hposition⟩
  · refine hlast.imp (fun hne hnop => ?_) fun hnil => ?_
    · simp [hnop, hne] at htext
    · simpa [hnil] using hpre
  · have hx' := List.mem_map_of_mem hx (f := leads)
    rw [hpost] at hx'
    obtain ⟨y, hy, heq⟩ := List.mem_map.mp hx'
    have htext' := (Prod.mk.inj heq).2
    simpa [hquiet y hy] using htext'

/-! ## One row -/

/-- A jump of the first lane in a row below `n` counts rows to the leader of the block
    that it leads to. -/
structure CountsRows (d : Compilation) (n : Nat) (s : Compilation) : Prop where
  retargeted : Retargeted d s
  untouched : ∀ id : Nat, (∀ row : Nat, row < n →
    Table.entry d.table row 0 ≠ some (some id)) → s.store[id]? = d.store[id]?
  counted : ∀ (row id : Nat) (j : Instr) (f : Fields), row < n →
    Table.entry d.table row 0 = some (some id) → s.store[id]? = some j →
    Fields.decode j.word = .ok f → f.isJump = true →
    ∃ (b : Int) (blk : Block) (i : Instr) (p : Int) (pl : Place), j.jumpsTo = some b ∧
      Position.get d.blocks b = .ok blk ∧ IsLeader d blk i ∧ i.position = some p ∧
      Position.get d.schedule p = .ok pl ∧ f.offset = pl.time - row - 1

variable {t : Compilation} {n : Nat}

theorem CountsRows.start (d : Compilation) : CountsRows d 0 d where
  retargeted := ⟨rfl, fun _ i hi => ⟨i, hi, .refl i⟩, rfl⟩
  untouched := fun _ _ => rfl
  counted := fun row _ _ _ hrow => absurd hrow (by omega)

theorem CountsRows.skip (h : CountsRows d n s)
    (hno : ∀ (id : Nat) (j : Instr) (f : Fields), Table.entry d.table n 0 = some (some id) →
      s.store[id]? = some j → Fields.decode j.word = .ok f → f.isJump = false) :
    CountsRows d (n + 1) s := by
  refine ⟨h.retargeted, ?_, ?_⟩
  · intro id hid
    exact h.untouched id fun row hrow => hid row (by omega)
  · intro row id j f hrow hs hj hf hjump
    by_cases hn : row = n
    · subst hn
      rw [hno id j f hs hj hf] at hjump
      cases hjump
    · exact h.counted row id j f (by omega) hs hj hf hjump

/-- The jump in the first lane of a row gets a new offset. -/
theorem CountsRows.write (hd : Tabled d) (h : CountsRows d n s) {id : Nat} {new lead : Instr}
    {b p : Int} {pl : Place} (hs : Table.entry d.table n 0 = some (some id))
    (hi : s.store[id]? = some i) (hnew : i.SameButOffset new) (hb : i.jumpsTo = some b)
    (hblk : Position.get d.blocks b = .ok blk) (hlead : IsLeader d blk lead)
    (hp : lead.position = some p) (hpl : Position.get d.schedule p = .ok pl)
    (hf : Fields.decode new.word = .ok { f with offset := pl.time - n - 1 }) :
    CountsRows d (n + 1) { s with store := s.store.setIfInBounds id new } := by
  have hother : ∀ id', id ≠ id' → (s.store.setIfInBounds id new)[id']? = s.store[id']? :=
    fun _ hne => Array.getElem?_setIfInBounds_ne hne
  have hself : (s.store.setIfInBounds id new)[id]? = some new :=
    Array.getElem?_setIfInBounds_self_of_lt (lt_size hi)
  refine ⟨⟨Array.size_setIfInBounds.trans h.retargeted.size, ?_, ?_⟩, ?_, ?_⟩
  · intro id' i' hi'
    obtain ⟨j, hj, hsame⟩ := h.retargeted.same id' i' hi'
    by_cases hne : id = id'
    · subst hne
      obtain rfl := Option.mem_unique hi hj
      exact ⟨new, hself, hsame.trans hnew⟩
    · exact ⟨j, (hother id' hne).trans hj, hsame⟩
  · rw [h.retargeted.rest]
  · intro id' hid'
    have hne : id ≠ id' := by
      rintro rfl
      exact hid' n (by omega) hs
    exact (hother id' hne).trans (h.untouched id' fun row hrow => hid' row (by omega))
  · intro row id' j f' hrow hs' hj hf' hjump
    by_cases hne : id = id'
    · subst hne
      obtain ⟨hrow', _⟩ := hd.slot_unique hs hs'
      obtain rfl : row = n := by omega
      obtain rfl := Option.mem_unique hself hj
      obtain rfl := Except.ok.inj (hf.symm.trans hf')
      exact ⟨b, blk, lead, p, pl, hnew.jumpsTo.trans hb, hblk, hlead, hp, hpl, rfl⟩
    · have hrow' : row ≠ n := by
        rintro rfl
        rw [hs] at hs'
        exact hne (Option.some.inj (Option.some.inj hs'))
      exact h.counted row id' j f' (by omega) hs' ((hother id' hne).symm.trans hj) hf' hjump

theorem CountsRows.step (hd : Tabled d) (h : CountsRows d n s) (hr : Runs (retarget n) s u t) :
    CountsRows d (n + 1) t := by
  have htable : s.table = d.table := by rw [h.retargeted.rest]
  have hblocks : s.blocks = d.blocks := by rw [h.retargeted.rest]
  have hschedule : s.schedule = d.schedule := by rw [h.retargeted.rest]
  obtain ⟨x, s', hslot, hjump⟩ := runs_bind.mp hr
  obtain ⟨r, hrow, hx, rfl⟩ := runs_slot.mp hslot
  have hentry := Table.entry_of_get (Int.natCast_nonneg n) (Int.le_refl 0) hrow hx
  rw [htable] at hentry
  cases x with
  | none =>
    obtain ⟨_, rfl⟩ := runs_pure.mp hjump
    refine h.skip ?_
    intro id j f hs
    rw [hentry] at hs
    cases hs
  | some id =>
    rw [runs_instr_bind] at hjump
    obtain ⟨i, hi, hjump⟩ := hjump
    rw [runs_fieldsOf_bind] at hjump
    obtain ⟨f, hf, hjump⟩ := hjump
    split at hjump
    · next hyes =>
      rw [runs_lift_bind] at hjump
      obtain ⟨b, hb, hjump⟩ := hjump
      rw [need_eq_ok_iff] at hb
      rw [runs_block_bind] at hjump
      obtain ⟨blk, hblk, hjump⟩ := hjump
      obtain ⟨p, s'', hlead, hplace⟩ := runs_bind.mp hjump
      obtain ⟨rfl, _, hlead', rfl⟩ := isLeader_of_runs hlead
      obtain ⟨lead, hlead', hp⟩ := hlead'.of_leads h.retargeted.leads.symm
      rw [runs_placeOf_bind] at hplace
      obtain ⟨q, pl, hq, hpl, hplace⟩ := hplace
      rw [runs_lift_bind] at hplace
      obtain ⟨w, hw, hplace⟩ := hplace
      obtain rfl := runs_setInstr.mp hplace
      rw [hblocks] at hblk
      rw [hschedule] at hpl
      obtain ⟨hsame, hdecode⟩ := Instr.sameButOffset_of_setOffset hf hyes hw
      exact h.write hd hentry hi hsame hb hblk hlead' (hp.trans hq) hpl hdecode
    · next hno =>
      obtain ⟨_, rfl⟩ := runs_pure.mp hjump
      refine h.skip ?_
      intro id' j f' hs hj hf'
      rw [hentry] at hs
      cases hs
      rw [hi] at hj
      cases hj
      rw [hf] at hf'
      cases hf'
      simpa using hno

theorem runs_retargetAll (hd : Tabled d) (hr : Runs retargetAll d u t) :
    CountsRows d d.table.size t := by
  have hrun := runs_forM_induct (fun k s => CountsRows d k s) hr (CountsRows.start d) ?_
  · rwa [List.length_range] at hrun
  · intro k row s t hk hs hstep
    obtain ⟨_, heq⟩ := List.getElem?_eq_some_iff.mp hk
    rw [List.getElem_range] at heq
    subst heq
    exact hs.step hd hstep

end Jumps

/-! ## A whole compilation -/

namespace Optimize

theorem keeps_printSummary : Keeps (fun t => t = { d with printed := t.printed }) printSummary := by
  have hsay : ∀ s : String, Keeps (fun t => t = { d with printed := t.printed }) (say s) := by
    intro s
    refine keeps_modify fun t ht => ?_
    rw [ht]
  refine keeps_bind keeps_get fun c => ?_
  refine keeps_bind (hsay _) fun _ => keeps_bind (hsay _) fun _ => ?_
  refine keeps_bind (hsay _) fun _ => keeps_bind (hsay _) fun _ => ?_
  refine keeps_bind (hsay _) fun _ => keeps_bind (hsay _) fun _ => ?_
  exact keeps_bind (hsay _) fun _ => keeps_bind (hsay _) fun _ => hsay _

theorem runs_run {target : Target} {options : Options} {words : Array Word} {texts : Array String}
    (hwords : NoJumpBefore words) {e : Compilation}
    (h : Runs run (start target options words texts) () e) :
    ∃ c d₀ d parsed order r, Runs prepare (start target options words texts) () c ∧
      Schedule.Placeable target words parsed c ∧ Runs Schedule.placeAll c () d₀ ∧
      d = { d₀ with printed := d.printed } ∧ Schedule.ListsBlocks c order ∧
      Schedule.Progress c order r d ∧ Jumps.CountsRows d d.table.size e := by
  rw [run_eq] at h
  obtain ⟨_, c, hprep, h⟩ := runs_bind.mp h
  obtain ⟨parsed, hready⟩ := Schedule.placeable_of_prepare hwords hprep
  obtain ⟨_, d₀, hplace, h⟩ := runs_bind.mp h
  obtain ⟨order, r, hlists, hd₀⟩ :=
    Schedule.progress_of_placeAll hready.laid hready.unplaced hplace
  obtain ⟨_, d, hprint, h⟩ := runs_bind.mp h
  have hd := keeps_printSummary.runs hprint rfl
  have hprogress : Schedule.Progress c order r d := by
    rw [hd]
    exact hd₀.setReports d₀.ranges d.printed d₀.drawings
  exact ⟨c, d₀, d, parsed, order, r, hprep, hready, hplace, hd, hlists, hprogress,
    Jumps.runs_retargetAll hprogress.tabled h⟩

end Optimize

namespace Jumps

/-- An instruction of the block stands in the row. -/
def RowHolds (e : Compilation) (blk : Block) (row : Int) : Prop :=
  ∃ lane id, Table.entry e.table row lane = some (some id) ∧ id ∈ blk.body

/-- The smallest row that holds an instruction of a block. -/
def IsFirstRow (e : Compilation) (blk : Block) (row : Int) : Prop :=
  RowHolds e blk row ∧ ∀ row', RowHolds e blk row' → row ≤ row'

theorem isJump_of_opcode {f' : Fields} (h : f'.opcode = f.opcode) : f'.isJump = f.isJump := by
  unfold Fields.isJump Fields.isBranch Fields.isExit Fields.isCall
  rw [h]

variable {Q : Instr → Prop} {words : Array Word} {c e : Compilation} {order : List Int}
  {r : Schedule.Reach} {row lane : Int} {id : Nat} {j : Instr}

/-- An instruction in a slot is at its position and does what it did when it was parsed, and
    has the offset it had, unless it is a jump of the first lane. -/
theorem CountsRows.source (hc : Laid Q words c) (hd : Schedule.Progress c order r d)
    (hrows : CountsRows d d.table.size e) (hslot : Table.entry d.table row lane = some (some id))
    (hj : e.store[id]? = some j) (hf : Fields.decode j.word = .ok f) :
    ∃ (q : Nat) (i₀ : Instr) (f₀ : Fields), Numbered c.blocks q id ∧ c.store[id]? = some i₀ ∧
      i₀.StandsFor words q ∧ Fields.decode i₀.word = .ok f₀ ∧ j.position = some (q : Int) ∧
      j.jumpsTo = i₀.jumpsTo ∧ f.opcode = f₀.opcode ∧ (lane ≠ 0 → f.offset = f₀.offset) := by
  obtain ⟨q, pl, hnum, _⟩ := (hd.tabled.slot row lane id).mp hslot
  rw [hd.frame.blocks] at hnum
  -- the instruction as it was parsed, placed, and in the end
  obtain ⟨i₀, hi₀, hstands⟩ := hc.standsFor hnum
  obtain ⟨i₁, hi₁, hop⟩ := hd.store.operation id i₀ hi₀
  obtain ⟨j', hj', hsame⟩ := hrows.retargeted.same id i₁ hi₁
  obtain rfl := Option.mem_unique hj hj'
  obtain ⟨f₀, hf₀, _⟩ := hstands.operands
  obtain ⟨f₁, hf₁, hopcode, hoffset⟩ := hop.fields f₀ hf₀
  obtain ⟨o, ho⟩ := hsame.fields f₁ hf₁
  obtain rfl := Except.ok.inj (hf.symm.trans ho)
  refine ⟨q, i₀, f₀, hnum, hi₀, hstands, hf₀,
    (hsame.position.trans hop.position).trans hstands.position, hsame.jumpsTo.trans hop.jumpsTo,
    hopcode, fun hlane => ?_⟩
  have huntouched := hrows.untouched id fun row' _ hslot' =>
    hlane (hd.tabled.slot_unique hslot hslot').2
  rw [hj, hi₁] at huntouched
  cases huntouched
  rw [← hoffset, Except.ok.inj (hf₁.symm.trans hf)]

/-- A jump of the first lane lands in the row of the leader of its target block. -/
theorem CountsRows.lands (hrows : CountsRows d d.table.size e)
    (hslot : Table.entry d.table row 0 = some (some id)) (hj : e.store[id]? = some j)
    (hf : Fields.decode j.word = .ok f) (hjump : f.isJump = true) {t : Nat}
    (ht : j.jumpsTo = some (t : Int)) (hblk : d.blocks[t]? = some blk) :
    ∃ i p pl, IsLeader e blk i ∧ i.position = some p ∧ Position.get e.schedule p = .ok pl ∧
      row + 1 + f.offset = pl.time := by
  obtain ⟨hrow, _, cells, hcells, _⟩ := Table.entry_eq_some_iff.mp hslot
  obtain ⟨n, rfl⟩ := Int.eq_ofNat_of_zero_le hrow
  obtain ⟨b, blk', i, p, pl, hb, hblk', hlead, hp, hpl, heq⟩ :=
    hrows.counted n id j f (lt_size hcells) hslot hj hf hjump
  rw [ht] at hb
  cases hb
  rw [Position.get_natCast, hblk] at hblk'
  cases hblk'
  obtain ⟨i', hlead', hposition⟩ := hlead.of_leads hrows.retargeted.leads
  refine ⟨i', p, pl, hlead', hposition.trans hp, ?_, by omega⟩
  rw [hrows.retargeted.rest]
  exact hpl

/-- Where a jump lands. In the first lane it lands in the row of the leader of its
    target block; in another lane its offset is that of the source. So it lands in the
    first row of that block exactly if the leader stands there or, in another lane, if
    the offset of the source leads there. -/
theorem jump_lands_in_first_row_iff {target : Target} {options : Options} {words : Array Word}
    {texts : Array String} (hwords : NoJumpBefore words) {e : Compilation}
    (hrun : Runs Optimize.run (start target options words texts) () e) {row lane : Int} {id : Nat}
    {j : Instr} {f : Fields} (hslot : Table.entry e.table row lane = some (some id))
    (hj : e.store[id]? = some j) (hf : Fields.decode j.word = .ok f) (hjump : f.isJump = true) :
    ∃ (q : Nat) (w : Word) (f₀ : Fields) (t : Nat) (blk : Block),
      j.position = some (q : Int) ∧ words[q]? = some w ∧ Fields.decode w = .ok f₀ ∧
      f₀.isJump = true ∧ e.blocks[t]? = some blk ∧ blk.kind = .basic ∧
      blk.start = q + 1 + f₀.offset ∧
      (lane = 0 → ∃ i p pl, IsLeader e blk i ∧ i.position = some p ∧
        Position.get e.schedule p = .ok pl ∧ row + 1 + f.offset = pl.time) ∧
      (lane ≠ 0 → f.offset = f₀.offset) ∧
      (IsFirstRow e blk (row + 1 + f.offset) ↔
        (lane = 0 ∧ ∃ i p pl, IsLeader e blk i ∧ i.position = some p ∧
          Position.get e.schedule p = .ok pl ∧ IsFirstRow e blk pl.time) ∨
        (lane ≠ 0 ∧ IsFirstRow e blk (row + 1 + f₀.offset))) := by
  obtain ⟨c, d₀, d, parsed, order, r, _, hready, _, _, hlists, hd, hrows⟩ :=
    Optimize.runs_run hwords hrun
  have hc := hready.laid
  rw [show e.table = d.table by rw [hrows.retargeted.rest]] at hslot
  obtain ⟨q, i₀, f₀, hnum, hi₀, hstands, hf₀, hposition, hto, hopcode, hother⟩ :=
    hrows.source hc hd hslot hj hf
  have hjump₀ : f₀.isJump = true := (isJump_of_opcode hopcode).symm.trans hjump
  have hsource := hready.jumps q i₀.word f₀ hstands.word hf₀ hjump₀
  obtain ⟨b, blk, k, hb, hkind, hk, rfl⟩ := hnum
  obtain ⟨t, tblk, ht, htblk, htkind, htstart⟩ :=
    (hc.holds b blk hb hkind).jump k id i₀ f₀ hk hi₀ hf₀ hjump₀
  have hspan := hc.cut.span b blk hb hkind
  have hdblk : d.blocks[t]? = some tblk := by rw [hd.frame.blocks, htblk]
  have hfirst : lane = 0 → _ := fun hlane =>
    hrows.lands (hlane ▸ hslot) hj hf hjump (hto.trans ht) hdblk
  refine ⟨_, i₀.word, f₀, t, tblk, hposition, hsource, hf₀, hjump₀, ?_, htkind, by omega, hfirst,
    hother, ?_⟩
  · rw [hrows.retargeted.rest]
    exact hdblk
  by_cases hlane : lane = 0
  · obtain ⟨i, p, pl, hlead, hp, hpl, heq⟩ := hfirst hlane
    rw [heq]
    refine ⟨fun h => .inl ⟨hlane, i, p, pl, hlead, hp, hpl, h⟩, ?_⟩
    rintro (⟨_, i', p', pl', hlead', hp', hpl', h⟩ | ⟨hne, _⟩)
    · obtain rfl := hlead.unique hlead'
      obtain rfl := Option.mem_unique hp hp'
      rwa [Except.ok.inj (hpl.symm.trans hpl')]
    · exact absurd hlane hne
  · rw [hother hlane]
    simp [hlane]

/-- A jump over one instruction to a load and an addition, which end in a jump to the exit. -/
def lateLeader : Array Word :=
  #[0x1501010000000000, 0xb700000002000000, 0x6112000000000000, 0x0f20000000000000,
    0x1500000000000000, 0x9500000000000000]

open Schedule in
/-- The jump lands in the row of the last instruction of a block with three rows. -/
theorem jump_lands_in_first_row_iff_lateLeader :
    ∃ (e : Compilation) (j i : Instr) (f : Fields) (blk : Block) (p : Int) (pl : Place),
      Runs Optimize.run (quietStart lateLeader) () e ∧ Table.entry e.table 0 0 = some (some 0) ∧
      e.store[0]? = some j ∧ Fields.decode j.word = .ok f ∧ f.isJump = true ∧
      blk ∈ e.blocks ∧ blk.start = 2 ∧ IsLeader e blk i ∧ i.position = some p ∧
      Position.get e.schedule p = .ok pl ∧ 0 + 1 + f.offset = pl.time ∧ RowHolds e blk 2 ∧
      ¬ IsFirstRow e blk (0 + 1 + f.offset) := by
  obtain ⟨_, e, _, he, hslot, ⟨j, hj, hf, hposition⟩, hrow⟩ :=
    exists_compiled (s := quietStart lateLeader) (P := fun _ e =>
      Table.entry e.table 0 0 = some (some 0) ∧ (∃ j, j ∈ e.store[0]? ∧ Fields.decode j.word =
        .ok { opcode := 0x15, dst := 1, src := 0, offset := 3, immediate := 0 } ∧
        j.position = some 0) ∧
      ∀ blk ∈ e.blocks, blk.start = 2 → ∃ id ∈ blk.body, Table.entry e.table 2 0 = some (some id))
      (by decide +kernel) (by decide +kernel) (by decide +kernel)
  obtain ⟨q, w, f₀, t, blk, hq, hw, hf₀, _, hblk, _, hstart, hfirst, _⟩ :=
    jump_lands_in_first_row_iff (by decide +kernel) he hslot hj hf (by decide)
  obtain rfl : q = 0 := by simpa [hposition, eq_comm] using hq
  obtain rfl : w = 0x1501010000000000 := (Option.some.inj hw).symm
  have hparsed : Fields.decode 0x1501010000000000 =
      .ok { opcode := 0x15, dst := 1, src := 0, offset := 1, immediate := 0 } := by decide +kernel
  obtain rfl := Except.ok.inj (hparsed.symm.trans hf₀)
  obtain ⟨i, p, pl, hlead, hp, hpl, hlands⟩ := hfirst rfl
  have hmem := Array.mem_of_getElem? hblk
  obtain ⟨id, hid, hslot'⟩ := hrow blk hmem hstart
  have hholds : RowHolds e blk 2 := ⟨0, id, hslot', hid⟩
  refine ⟨e, j, i, _, blk, p, pl, he, hslot, hj, hf, by decide, hmem, hstart, hlead, hp, hpl,
    hlands, hholds, fun h => ?_⟩
  exact absurd (h.2 2 hholds) (by decide)

end Jumps
end BpfLanes
