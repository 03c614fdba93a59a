import BpfLanes.LiveRange
import BpfLanes.Proofs.Runs

/-! # Live ranges on record

The list of live ranges grows by one range when a value is written. Everything else
that happens to it changes the register or the end row of a range, or forgets
ranges. So a range that is on record goes back to an instruction that was placed,
and the newest range of a register stays the newest until that register is written
again.
-/

namespace BpfLanes

/-- What a range is, wherever it begins and ends. -/
def LiveRange.core (x : LiveRange) : Int × Int × Option Int :=
  (x.register, x.definedBy, x.lastUse)

namespace LiveRanges

variable {row : Int} {registers : List Int} {d : LiveRange} {user : Option Int}

/-! ## Where ranges come from -/

/-- Every range of `new` is defined by an instruction that satisfies `own`, or has the
    definition and the last use of a range of `old`. -/
def ComesFrom (own : Int → Prop) (old new : LiveRanges) : Prop :=
  ∀ x ∈ new, own x.definedBy ∨ ∃ y ∈ old, y.definedBy = x.definedBy ∧ y.lastUse = x.lastUse

variable {old new definedBy : Int}

variable {own own' : Int → Prop} {rs rs' : LiveRanges} {p : LiveRange → Bool}
  {f : LiveRange → LiveRange} {x : LiveRange}

theorem ComesFrom.refl (own : Int → Prop) (rs : LiveRanges) : ComesFrom own rs rs :=
  fun x hx => .inr ⟨x, hx, rfl, rfl⟩

theorem ComesFrom.trans {a b c : LiveRanges} (h : ComesFrom own a b) (h' : ComesFrom own b c) :
    ComesFrom own a c := by
  intro x hx
  rcases h' x hx with hown | ⟨y, hy, hdef, huse⟩
  · exact .inl hown
  · rcases h y hy with hown | ⟨z, hz, hdef', huse'⟩
    · exact .inl (hdef ▸ hown)
    · exact .inr ⟨z, hz, hdef'.trans hdef, huse'.trans huse⟩

theorem ComesFrom.mono (h : ComesFrom own rs rs') (hle : ∀ p, own p → own' p) :
    ComesFrom own' rs rs' := by
  intro x hx
  rcases h x hx with hown | hold
  · exact .inl (hle _ hown)
  · exact .inr hold

theorem mem_modifyFirst (h : x ∈ modifyFirst p f rs) :
    x ∈ rs ∨ ∃ y, rs.find? p = some y ∧ x = f y := by
  induction rs with
  | nil => cases h
  | cons r rs ih =>
    unfold modifyFirst at h
    by_cases hp : p r = true
    · rw [if_pos hp] at h
      rcases List.mem_cons.mp h with rfl | hmem
      · exact .inr ⟨r, List.find?_cons_of_pos hp, rfl⟩
      · exact .inl (List.mem_cons_of_mem _ hmem)
    · rw [if_neg hp] at h
      rcases List.mem_cons.mp h with rfl | hmem
      · exact .inl List.mem_cons_self
      · rw [List.find?_cons_of_neg hp]
        exact (ih hmem).imp_left (List.mem_cons_of_mem _)

theorem comesFrom_modifyFirst
    (hf : ∀ y, (f y).definedBy = y.definedBy ∧ (f y).lastUse = y.lastUse) :
    ComesFrom own rs (modifyFirst p f rs) := by
  intro x hx
  rcases mem_modifyFirst hx with hmem | ⟨y, hy, rfl⟩
  · exact .inr ⟨x, hmem, rfl, rfl⟩
  · exact .inr ⟨y, List.mem_of_find?_eq_some hy, (hf y).1.symm, (hf y).2.symm⟩

theorem comesFrom_rename :
    ComesFrom own rs (rs.rename old new definedBy row) :=
  comesFrom_modifyFirst fun _ => ⟨rfl, rfl⟩

theorem comesFrom_define (hd : own d.definedBy) : ComesFrom own rs (rs.define d) := by
  unfold define
  dsimp only
  split
  · exact comesFrom_modifyFirst fun _ => ⟨rfl, rfl⟩
  · exact List.forall_mem_append.mpr
      ⟨fun x hx => .inr ⟨x, hx, rfl, rfl⟩, List.forall_mem_singleton.mpr (.inl hd)⟩

theorem map_core_modifyFirst (hf : ∀ y, (f y).core = y.core) :
    (modifyFirst p f rs).map LiveRange.core = rs.map LiveRange.core := by
  induction rs with
  | nil => rfl
  | cons r rs ih =>
    unfold modifyFirst
    split
    · rw [List.map_cons, List.map_cons, hf]
    · rw [List.map_cons, List.map_cons, ih]

theorem map_core_read (registers : List Int) (row : Int) (user : Option Int) :
    (rs.read registers row user).map LiveRange.core = rs.map LiveRange.core := by
  induction registers generalizing rs with
  | nil => rfl
  | cons r registers ih =>
    refine ih.trans ?_
    unfold readOne
    dsimp only
    split
    · split
      · exact map_core_modifyFirst fun _ => rfl
      · rfl
    · rfl

theorem mem_read (h : x ∈ rs.read registers row user) :
    ∃ y ∈ rs, y.register = x.register ∧ y.definedBy = x.definedBy ∧ y.lastUse = x.lastUse := by
  have hmem := List.mem_map_of_mem (f := LiveRange.core) h
  rw [map_core_read] at hmem
  obtain ⟨y, hy, heq⟩ := List.mem_map.mp hmem
  simp only [LiveRange.core, Prod.mk.injEq] at heq
  exact ⟨y, hy, heq⟩

theorem comesFrom_read : ComesFrom own rs (rs.read registers row user) := by
  intro x hx
  obtain ⟨y, hy, _, hdef, huse⟩ := mem_read hx
  exact .inr ⟨y, hy, hdef, huse⟩

/-! ## Leaving a block -/

theorem filterAuxM_ok {α : Type} {test : α → Except Fault Bool} {xs acc ys : List α}
    (h : xs.filterAuxM test acc = .ok ys) : ∀ y ∈ ys, y ∈ acc ∨ y ∈ xs ∧ test y = .ok true := by
  induction xs generalizing acc with
  | nil =>
    cases h
    exact fun y hy => .inl hy
  | cons x xs ih =>
    obtain ⟨keep, hkeep, h⟩ := bind_eq_ok.mp h
    intro y hy
    rcases ih h y hy with hacc | ⟨hmem, htest⟩
    · cases keep with
      | false => exact .inl hacc
      | true =>
        rcases List.mem_cons.mp hacc with rfl | hacc
        · exact .inr ⟨List.mem_cons_self, hkeep⟩
        · exact .inl hacc
    · exact .inr ⟨List.mem_cons_of_mem _ hmem, htest⟩

theorem mem_leaveBlock {stop : Int} (h : rs.leaveBlock stop = .ok rs') (hx : x ∈ rs') :
    x ∈ rs ∧ ∃ use, x.lastUse = some use ∧ stop < use := by
  obtain ⟨kept, hkept, h⟩ := bind_eq_ok.mp h
  cases h
  rcases filterAuxM_ok hkept x (List.mem_reverse.mp hx) with hnil | ⟨hmem, htest⟩
  · cases hnil
  obtain ⟨use, huse, htest⟩ := bind_eq_ok.mp htest
  refine ⟨hmem, use, ?_, ?_⟩
  · cases hlast : x.lastUse with
    | none =>
      rw [hlast] at huse
      cases huse
    | some last =>
      rw [hlast] at huse
      cases huse
      rfl
  · have hlt : decide (stop < use) = true := Except.ok.inj htest
    simpa using hlt

/-! ## The newest range of a register -/

/-- The last range on record for a register. -/
structure Newest (rs : LiveRanges) (register : Int) (x : LiveRange) : Prop where
  split : ∃ front back, rs = front ++ x :: back ∧ ∀ y ∈ back, y.register ≠ register
  register_eq : x.register = register

variable {register : Int}

theorem Newest.mem (h : Newest rs register x) : x ∈ rs := by
  obtain ⟨front, back, rfl, _⟩ := h.split
  simp

theorem Newest.conflict (h : Newest rs register x) (hx : x.outlives row = true) :
    rs.conflict? register row = some x := by
  obtain ⟨front, back, rfl, hback⟩ := h.split
  have hnone : (back.reverse.find? fun y => y.register == register && y.outlives row) = none := by
    rw [List.find?_eq_none]
    intro y hy
    have hne := hback y (List.mem_reverse.mp hy)
    simp [hne]
  unfold conflict?
  rw [List.reverse_append, List.reverse_cons, List.append_assoc, List.find?_append, hnone]
  simp [h.register_eq, hx]

theorem conflict_mem (h : rs.conflict? register row = some x) : x ∈ rs ∧ x.register = register := by
  have hmem := List.mem_of_find?_eq_some h
  have htest := List.find?_some h
  simp only [Bool.and_eq_true, beq_iff_eq] at htest
  exact ⟨List.mem_reverse.mp hmem, htest.1⟩

theorem conflict_outlives (h : rs.conflict? register row = some x) : x.outlives row = true := by
  have htest := List.find?_some h
  simp only [Bool.and_eq_true] at htest
  exact htest.2

theorem lt_of_outlives {last : Int} (h : x.outlives row = true) (hend : x.endRow = some last) :
    row < last := by
  unfold LiveRange.outlives at h
  rw [hend] at h
  simpa using h

theorem mem_taken :
    register ∈ rs.taken row ↔ ∃ x ∈ rs, x.register = register ∧ x.outlives row = true := by
  have hall : ∀ (rs : LiveRanges) (seen : List Int),
      register ∈ rs.foldl (fun seen r =>
        if r.outlives row && !seen.contains r.register then seen ++ [r.register] else seen) seen ↔
      register ∈ seen ∨ ∃ x ∈ rs, x.register = register ∧ x.outlives row = true := by
    intro rs
    induction rs with
    | nil => simp
    | cons y rs ih =>
      intro seen
      grind
  rw [taken, hall rs []]
  simp

theorem mem_taken_of_conflict (h : rs.conflict? register row = some x) :
    register ∈ rs.taken row :=
  mem_taken.mpr ⟨x, (conflict_mem h).1, (conflict_mem h).2, conflict_outlives h⟩

theorem newest_append (hd : d.register = register) : Newest (rs ++ [d]) register d :=
  ⟨⟨rs, [], rfl, by simp⟩, hd⟩

theorem Newest.append (h : Newest rs register x) (hd : d.register ≠ register) :
    Newest (rs ++ [d]) register x := by
  obtain ⟨front, back, rfl, hback⟩ := h.split
  refine ⟨⟨front, back ++ [d], by simp, ?_⟩, h.register_eq⟩
  exact List.forall_mem_append.mpr ⟨hback, List.forall_mem_singleton.mpr hd⟩

/-- What happens to the rows of ranges leaves the newest one where it is. -/
theorem Newest.of_core (h : Newest rs register x)
    (hcore : rs'.map LiveRange.core = rs.map LiveRange.core) :
    ∃ y, Newest rs' register y ∧ y.core = x.core := by
  obtain ⟨front, back, rfl, hback⟩ := h.split
  rw [List.map_append, List.map_cons, List.map_eq_append_iff] at hcore
  obtain ⟨front', rest', rfl, _, hrest⟩ := hcore
  obtain ⟨y, back', rfl, hy, hback'⟩ := List.map_eq_cons_iff.mp hrest
  refine ⟨y, ⟨⟨front', back', rfl, fun z hz heq => ?_⟩, ?_⟩, hy⟩
  · have hmem := List.mem_map_of_mem (f := LiveRange.core) hz
    rw [hback'] at hmem
    obtain ⟨z', hz', hsame⟩ := List.mem_map.mp hmem
    exact hback z' hz' ((congrArg Prod.fst hsame).trans heq)
  · exact (congrArg Prod.fst hy).trans h.register_eq

theorem define_of_new (h : ∀ x ∈ rs, x.definedBy ≠ d.definedBy) :
    rs.define d = rs ++ [d] := by
  unfold define
  rw [if_neg]
  intro hany
  obtain ⟨x, hx, hsame⟩ := List.any_eq_true.mp hany
  simp only [LiveRange.isDefinition, Bool.and_eq_true, beq_iff_eq] at hsame
  exact h x hx hsame.2

theorem rename_of_new (h : ∀ x ∈ rs, x.definedBy ≠ definedBy) :
    rs.rename old new definedBy row = rs := by
  unfold rename
  induction rs with
  | nil => rfl
  | cons x rs ih =>
    have hx := h x List.mem_cons_self
    rw [modifyFirst, if_neg (by simp [LiveRange.isDefinition, hx]),
      ih fun y hy => h y (List.mem_cons_of_mem _ hy)]

end LiveRanges
end BpfLanes
