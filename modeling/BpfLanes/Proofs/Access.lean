import BpfLanes.Compilation
import BpfLanes.Proofs.Runs

/-! # Looking up and replacing

What the access steps of a compilation read and write: one equivalence for each
step, by which a run of it is taken apart.
-/

namespace BpfLanes

variable {blk : Block} {i : Instr} {id k : Nat} {p : Option Int} {s : String} {α : Type}
  {xs ys : Array α} {a : α}

theorem lt_size (h : xs[k]? = some a) : k < xs.size :=
  (Array.getElem?_eq_some_iff.mp h).1

theorem getElem?_of_map_eq {β : Type} {f : α → β} (h : ys.map f = xs.map f) (ha : xs[k]? = some a) :
    ∃ b, ys[k]? = some b ∧ f b = f a := by
  have hmap := congrArg (·[k]?) h
  simpa [ha] using hmap

/-! ## Positions -/

namespace Position

variable {i : Int}

theorem resolve_of_nonneg {size : Nat} (hi : 0 ≤ i) :
    resolve size i = some k ↔ i = k ∧ k < size := by
  unfold resolve
  rw [if_pos hi]
  split
  · simp only [Option.some.injEq]
    omega
  · simp only [reduceCtorEq, false_iff]
    omega

theorem get_eq_ok_iff :
    get xs i = .ok a ↔ ∃ k, resolve xs.size i = some k ∧ xs[k]? = some a := by
  unfold get get?
  cases hk : resolve xs.size i with
  | none => simp
  | some k =>
    have hlt := resolve_lt hk
    simp [hlt]

theorem get_of_nonneg (hi : 0 ≤ i) :
    get xs i = .ok a ↔ xs[i.toNat]? = some a := by
  rw [get_eq_ok_iff]
  constructor
  · rintro ⟨k, hk, ha⟩
    obtain ⟨rfl, _⟩ := (resolve_of_nonneg hi).mp hk
    exact ha
  · intro ha
    exact ⟨i.toNat, (resolve_of_nonneg hi).mpr ⟨by omega, lt_size ha⟩, ha⟩

@[simp] theorem get_natCast :
    get xs (k : Int) = .ok a ↔ xs[k]? = some a := by
  rw [get_of_nonneg (by omega), Int.toNat_natCast]

theorem get_last : get xs (-1) = .ok a ↔ xs[xs.size - 1]? = some a := by
  rw [get_eq_ok_iff]
  unfold resolve
  rw [if_neg (by decide)]
  by_cases h : 0 < xs.size
  · rw [if_pos (by omega)]
    have hlast : (-1 + (xs.size : Int)).toNat = xs.size - 1 := by omega
    simp [hlast]
  · obtain rfl : xs = #[] := Array.eq_empty_of_size_eq_zero (by omega)
    simp

theorem set_eq_ok_iff :
    set xs i a = .ok ys ↔ ∃ k, resolve xs.size i = some k ∧ ys = xs.setIfInBounds k a := by
  unfold set
  cases hk : resolve xs.size i with
  | none => simp
  | some k =>
    simp only [Except.ok.injEq, Option.some.injEq, exists_eq_left']
    exact eq_comm

theorem set_of_nonneg (hi : 0 ≤ i) :
    set xs i a = .ok ys ↔ i.toNat < xs.size ∧ ys = xs.setIfInBounds i.toNat a := by
  rw [set_eq_ok_iff]
  constructor
  · rintro ⟨k, hk, rfl⟩
    obtain ⟨rfl, hlt⟩ := (resolve_of_nonneg hi).mp hk
    exact ⟨hlt, rfl⟩
  · rintro ⟨hlt, rfl⟩
    exact ⟨i.toNat, (resolve_of_nonneg hi).mpr ⟨by omega, hlt⟩, rfl⟩

@[simp] theorem set_natCast :
    set xs (k : Int) a = .ok ys ↔ k < xs.size ∧ ys = xs.setIfInBounds k a := by
  rw [set_of_nonneg (by omega), Int.toNat_natCast]

end Position

@[simp] theorem need_eq_ok_iff {o : Option α} : need o = .ok a ↔ o = some a := by
  cases o with
  | none => simp [need]
  | some b => simp [need]

/-! ## Steps of a compilation -/

namespace Compilation

variable {b n row lane : Int} {u : Unit}

variable {c d : Compilation}

@[simp] theorem runs_block :
    Runs (block b) c blk d ↔ Position.get c.blocks b = .ok blk ∧ d = c := by
  simp [block]

@[simp] theorem runs_setBlock : Runs (setBlock b blk) c u d ↔
      ∃ blocks, Position.set c.blocks b blk = .ok blocks ∧ d = { c with blocks } := by
  simp [setBlock]

@[simp] theorem runs_instr : Runs (instr id) c i d ↔ c.store[id]? = some i ∧ d = c := by
  simp [instr]

@[simp] theorem runs_setInstr :
    Runs (setInstr id i) c u d ↔ d = { c with store := c.store.setIfInBounds id i } := by
  simp [setInstr]

@[simp] theorem runs_idAt :
    Runs (idAt blk n) c id d ↔ Position.get blk.body n = .ok id ∧ d = c := by
  simp [idAt]

theorem runs_instrAt : Runs (instrAt blk n) c i d ↔
      ∃ id, Position.get blk.body n = .ok id ∧ c.store[id]? = some i ∧ d = c := by
  simp only [instrAt, runs_bind, runs_idAt, runs_instr]
  constructor
  · rintro ⟨id, _, ⟨hid, rfl⟩, hi, rfl⟩
    exact ⟨id, hid, hi, rfl⟩
  · rintro ⟨id, hid, hi, rfl⟩
    exact ⟨id, _, ⟨hid, rfl⟩, hi, rfl⟩

@[simp] theorem runs_fieldsOf {f : Fields} :
    Runs (fieldsOf i) c f d ↔ Fields.decode i.word = .ok f ∧ d = c := by
  simp [fieldsOf]

@[simp] theorem runs_placeOf {pl : Place} : Runs (placeOf p) c pl d ↔
      ∃ q, p = some q ∧ Position.get c.schedule q = .ok pl ∧ d = c := by
  simp [placeOf]

theorem runs_setPlace {f : Place → Place} : Runs (setPlace p f) c u d ↔
      ∃ q pl schedule, p = some q ∧ Position.get c.schedule q = .ok pl
        ∧ Position.set c.schedule q (f pl) = .ok schedule ∧ d = { c with schedule } := by
  unfold setPlace
  rw [runs_bind]
  constructor
  · rintro ⟨pl, t, hp, h⟩
    obtain ⟨q, rfl, hpl, rfl⟩ := runs_placeOf.mp hp
    simp only [runs_get_bind] at h
    simp only [runs_lift_bind, runs_set, need_eq_ok_iff] at h
    obtain ⟨q', hq, schedule, hset, hd⟩ := h
    cases hq
    exact ⟨q, pl, schedule, rfl, hpl, hset, hd⟩
  · rintro ⟨q, pl, schedule, rfl, hpl, hset, rfl⟩
    refine ⟨pl, c, runs_placeOf.mpr ⟨q, rfl, hpl, rfl⟩, ?_⟩
    simp only [runs_get_bind]
    simp only [runs_lift_bind, runs_set, need_eq_ok_iff]
    exact ⟨q, rfl, schedule, hset, rfl⟩

@[simp] theorem runs_slot {s : Option Nat} :
    Runs (slot row lane) c s d ↔
      ∃ r, Position.get c.table row = .ok r ∧ Position.get r lane = .ok s ∧ d = c := by
  simp [slot]

theorem runs_setSlot : Runs (setSlot row lane id) c u d ↔
      ∃ r r' table, Position.get c.table row = .ok r ∧ Position.set r lane (some id) = .ok r'
        ∧ Position.set c.table row r' = .ok table ∧ d = { c with table } := by
  simp [setSlot]

@[simp] theorem runs_flowGraph {g : Digraph} :
    Runs flowGraph c g d ↔ c.flow = some g ∧ d = c := by
  unfold flowGraph
  simp only [runs_bind, runs_get]
  constructor
  · rintro ⟨_, _, ⟨rfl, rfl⟩, h⟩
    split at h
    · next g' hg =>
      obtain ⟨rfl, rfl⟩ := runs_pure.mp h
      exact ⟨hg, rfl⟩
    · exact absurd h runs_throw
  · rintro ⟨hg, rfl⟩
    refine ⟨d, d, ⟨rfl, rfl⟩, ?_⟩
    rw [hg]
    exact runs_pure.mpr ⟨rfl, rfl⟩

@[simp] theorem runs_say :
    Runs (say s) c u d ↔ d = { c with printed := c.printed ++ s ++ "\n" } := by
  simp [say]

theorem not_runs_fail : ¬ Runs (fail s) c a d := by
  simp [fail]

theorem runs_setProgram {p : Nat} {word : Word} {text : String} :
    Runs (setProgram (some (p : Int)) word text) c u d ↔
      p < c.words.size ∧ p < c.texts.size ∧ d = { c with
        words := c.words.setIfInBounds p word, texts := c.texts.setIfInBounds p text } := by
  unfold setProgram
  simp only [runs_lift_bind, need_eq_ok_iff, Option.some.injEq, exists_eq_left', runs_get_bind,
    Position.set_natCast, runs_set_bind, runs_modify]
  constructor
  · rintro ⟨words, ⟨hwords, rfl⟩, texts, ⟨htexts, rfl⟩, rfl⟩
    exact ⟨hwords, htexts, rfl⟩
  · rintro ⟨hwords, htexts, rfl⟩
    exact ⟨_, ⟨hwords, rfl⟩, _, ⟨htexts, rfl⟩, rfl⟩

/-! ## Steps that go on

What follows one of these steps starts from the state that the step leaves. -/

variable {β : Type} {x : β}

@[simp high] theorem runs_block_bind {f : Block → CompileM β} :
    Runs (block b >>= f) c x d ↔ ∃ blk, Position.get c.blocks b = .ok blk ∧ Runs (f blk) c x d := by
  simp [and_assoc]

@[simp high] theorem runs_instr_bind {f : Instr → CompileM β} :
    Runs (instr id >>= f) c x d ↔ ∃ i, c.store[id]? = some i ∧ Runs (f i) c x d := by
  simp [and_assoc]

@[simp high] theorem runs_idAt_bind {f : Nat → CompileM β} : Runs (idAt blk n >>= f) c x d ↔
      ∃ id, Position.get blk.body n = .ok id ∧ Runs (f id) c x d := by
  simp [and_assoc]

@[simp high] theorem runs_instrAt_bind {f : Instr → CompileM β} : Runs (instrAt blk n >>= f) c x d ↔
      ∃ id i, Position.get blk.body n = .ok id ∧ c.store[id]? = some i ∧ Runs (f i) c x d := by
  simp only [instrAt, bind_assoc, runs_idAt_bind, runs_instr_bind]
  simp only [exists_and_left]

@[simp high] theorem runs_body_bind {f : List Instr → CompileM β} :
    Runs (body blk >>= f) c x d ↔ Runs (f (c.bodyOf blk)) c x d :=
  Iff.rfl

@[simp high] theorem runs_fieldsOf_bind {f : Fields → CompileM β} :
    Runs (fieldsOf i >>= f) c x d ↔ ∃ g, Fields.decode i.word = .ok g ∧ Runs (f g) c x d := by
  simp [and_assoc]

@[simp high] theorem runs_placeOf_bind {f : Place → CompileM β} : Runs (placeOf p >>= f) c x d ↔
      ∃ q pl, p = some q ∧ Position.get c.schedule q = .ok pl ∧ Runs (f pl) c x d := by
  simp only [runs_bind, runs_placeOf]
  constructor
  · rintro ⟨pl, _, ⟨q, hq, hpl, rfl⟩, h⟩
    exact ⟨q, pl, hq, hpl, h⟩
  · rintro ⟨q, pl, hq, hpl, h⟩
    exact ⟨pl, c, ⟨q, hq, hpl, rfl⟩, h⟩

@[simp high] theorem runs_flowGraph_bind {f : Digraph → CompileM β} :
    Runs (flowGraph >>= f) c x d ↔ ∃ g, c.flow = some g ∧ Runs (f g) c x d := by
  simp [and_assoc]

variable {f : Unit → CompileM β}

@[simp high] theorem runs_setBlock_bind :
    Runs (setBlock b blk >>= f) c x d ↔
      ∃ blocks, Position.set c.blocks b blk = .ok blocks ∧ Runs (f ()) { c with blocks } x d := by
  simp only [runs_bind, runs_setBlock]
  constructor
  · rintro ⟨_, _, ⟨blocks, hset, rfl⟩, h⟩
    exact ⟨blocks, hset, h⟩
  · rintro ⟨blocks, hset, h⟩
    exact ⟨(), _, ⟨blocks, hset, rfl⟩, h⟩

theorem setInstr_run_bind (f : Unit → CompileM β) :
    (setInstr id i >>= f).run c = (f ()).run { c with store := c.store.setIfInBounds id i } := rfl

@[simp high] theorem runs_setInstr_bind : Runs (setInstr id i >>= f) c x d ↔
      Runs (f ()) { c with store := c.store.setIfInBounds id i } x d :=
  Iff.rfl

@[simp high] theorem runs_say_bind :
    Runs (say s >>= f) c x d ↔ Runs (f ()) { c with printed := c.printed ++ s ++ "\n" } x d :=
  Iff.rfl

/-! ## Steps that only look -/

variable {I : Compilation → Prop}

@[simp] theorem keeps_block : Keeps I (block b) :=
  keeps_bind keeps_get fun _ => keeps_lift _

@[simp] theorem keeps_instr : Keeps I (instr id) :=
  keeps_bind keeps_get fun _ => keeps_lift _

@[simp] theorem keeps_idAt : Keeps I (idAt blk n) :=
  keeps_lift _

@[simp] theorem keeps_instrAt : Keeps I (instrAt blk n) :=
  keeps_bind keeps_idAt fun _ => keeps_instr

@[simp] theorem keeps_body : Keeps I (body blk) :=
  keeps_bind keeps_get fun _ => keeps_pure _

@[simp] theorem keeps_fieldsOf : Keeps I (fieldsOf i) :=
  keeps_lift _

@[simp] theorem keeps_placeOf : Keeps I (placeOf p) :=
  keeps_bind keeps_get fun _ => keeps_bind (keeps_lift _) fun _ => keeps_lift _

@[simp] theorem keeps_slot : Keeps I (slot row lane) :=
  keeps_bind keeps_get fun _ => keeps_bind (keeps_lift _) fun _ => keeps_lift _

@[simp] theorem keeps_flowGraph : Keeps I flowGraph := by
  refine keeps_bind keeps_get fun c => ?_
  split
  · exact keeps_pure _
  · exact keeps_throw _

end Compilation
end BpfLanes
