import BpfLanes.Liveness
import BpfLanes.Proofs.FlowFrame

/-! # What a block needs and sets

The summary of a block names the registers that some instruction of it reads before
any instruction writes them, and the registers that some instruction writes.
-/

namespace BpfLanes

variable {f : Fields} {i : Instr} {p r : Int}

/-! ## Registers of maps -/

namespace RegMap

variable {m n : RegMap}

theorem has_put {x : Int} : (m.put r p).has x = true ↔ m.has x = true ∨ x = r := by
  unfold put
  by_cases hr : m.has r = true
  · rw [if_pos hr]
    have hsame : RegMap.has (m.map fun e => if e.1 == r then (r, p) else e) x = m.has x := by
      unfold has
      rw [List.any_map]
      congr 1
      funext e
      by_cases he : e.1 = r
      · simp [he]
      · simp [he]
    rw [hsame]
    constructor
    · exact .inl
    · intro h
      rcases h with h | rfl
      · exact h
      · exact hr
  · rw [if_neg hr]
    unfold has
    rw [List.any_append, Bool.or_eq_true]
    simp only [List.any_cons, List.any_nil, Bool.or_false, beq_iff_eq, eq_comm (a := x)]

theorem has_without : (m.without n).has r = true ↔ m.has r = true ∧ n.has r = false := by
  constructor
  · intro h
    obtain ⟨e, he, hr⟩ := List.any_eq_true.mp h
    obtain ⟨hm, hn⟩ := List.mem_filter.mp he
    have hre : e.1 = r := by simpa using hr
    rw [hre] at hn
    exact ⟨List.any_eq_true.mpr ⟨e, hm, hr⟩, by simpa using hn⟩
  · rintro ⟨hm, hn⟩
    obtain ⟨e, he, hr⟩ := List.any_eq_true.mp hm
    have hre : e.1 = r := by simpa using hr
    refine List.any_eq_true.mpr ⟨e, List.mem_filter.mpr ⟨he, ?_⟩, hr⟩
    rw [hre, hn]
    rfl

theorem has_of_get? (h : m.get? r = some p) : m.has r = true := by
  obtain ⟨l₁, l₂, rfl, _⟩ := List.lookup_eq_some_iff.mp h
  simp [has]

theorem has_union : (m.union n).has r = true ↔ m.has r = true ∨ n.has r = true := by
  unfold union
  induction n generalizing m with
  | nil => simp [has]
  | cons e n ih =>
    have hcons : RegMap.has (e :: n) r = true ↔ r = e.1 ∨ RegMap.has n r = true := by
      unfold has
      rw [List.any_cons, Bool.or_eq_true, beq_iff_eq, eq_comm (a := r)]
    rw [List.foldl_cons, ih, hcons]
    cases hget : m.get? e.1 with
    | none =>
      simp only [has_put]
      tauto
    | some p =>
      have hin := has_of_get? hget
      dsimp only
      split
      · rw [has_put]
        tauto
      constructor
      · tauto
      · intro h
        rcases h with h | rfl | h
        · exact .inl h
        · exact .inl hin
        · exact .inr h

theorem sameKeys_iff : m.sameKeys n = true ↔ ∀ r, m.has r = true ↔ n.has r = true := by
  have hall : ∀ {m n : RegMap}, (m.all fun e => n.has e.1) = true ↔
      ∀ r, m.has r = true → n.has r = true := by
    intro m n
    rw [List.all_eq_true]
    constructor
    · intro h r hr
      obtain ⟨e, he, heq⟩ := List.any_eq_true.mp hr
      have hre : e.1 = r := by simpa using heq
      rw [← hre]
      exact h e he
    · intro h e he
      exact h e.1 (List.any_eq_true.mpr ⟨e, he, by simp⟩)
  unfold sameKeys
  rw [Bool.and_eq_true, hall, hall]
  constructor
  · intro h r
    exact ⟨h.1 r, h.2 r⟩
  · intro h
    exact ⟨fun r => (h r).mp, fun r => (h r).mpr⟩

end RegMap

/-! ## Instructions -/

/-- The registers that an instruction reads. A call reads the arguments of its helper,
    an exit the result register. -/
def Instr.needs (i : Instr) : List Int :=
  match Fields.decode i.word with
  | .ok f =>
    if f.isCall then Opcode.helperArguments f.immediate else if f.isExit then [0] else f.inputs
  | .error _ => []

/-- The registers that an instruction writes. A call writes the result register. -/
def Instr.sets (i : Instr) : List Int :=
  match Fields.decode i.word with
  | .ok f => if f.isCall then [0] else if f.isNop then [] else f.output?.toList
  | .error _ => []

theorem Fields.inputs_of_isExit (h : f.isExit = true) : f.inputs = [0] := by
  have hexit : ∀ opcode ∈ Opcode.exits, Opcode.readsSource.contains opcode = false
      ∧ Opcode.readsTarget.contains opcode = false
      ∧ Opcode.readsBoth.contains opcode = false := by decide
  obtain ⟨hsource, htarget, hboth⟩ := hexit f.opcode (List.contains_iff_mem.mp h)
  unfold Fields.inputs
  simp only [hsource, htarget, hboth, h, Bool.false_eq_true, if_false, if_true]

theorem Instr.needs_eq (h : Fields.decode i.word = .ok f) :
    i.needs = if f.isCall then Opcode.helperArguments f.immediate else f.inputs := by
  unfold Instr.needs
  rw [h]
  dsimp only
  split
  · rfl
  · split
    · next hexit => exact (Fields.inputs_of_isExit hexit).symm
    · rfl

theorem Fields.register_of_inputs {w : Word} (hf : Fields.decode w = .ok f) (h : r ∈ f.inputs) :
    0 ≤ r ∧ r < 16 := by
  have hfields : (0 ≤ f.src ∧ f.src < 16) ∧ 0 ≤ f.dst ∧ f.dst < 16 := by
    obtain ⟨x, _, hx⟩ := bind_eq_ok.mp hf
    cases hx
    have hwidth : Word.weight 4 = 16 := rfl
    dsimp only
    rw [hwidth]
    omega
  unfold Fields.inputs at h
  split at h
  · rw [List.mem_singleton.mp h]
    exact hfields.1
  split at h
  · rw [List.mem_singleton.mp h]
    exact hfields.2
  split at h
  · rcases List.mem_cons.mp h with rfl | h
    · exact hfields.1
    · rw [List.mem_singleton.mp h]
      exact hfields.2
  · split at h
    · rw [List.mem_singleton.mp h]
      decide
    · cases h

theorem register_of_helperArguments {helper : Int} (h : r ∈ Opcode.helperArguments helper) :
    0 ≤ r ∧ r < 16 := by
  obtain ⟨k, hk, rfl⟩ := List.mem_map.mp h
  rw [List.mem_range] at hk
  have hfive : (Opcode.helperArity.lookup helper).getD 5 ≤ 5 := by
    cases hl : Opcode.helperArity.lookup helper with
    | none => decide
    | some n =>
      have hall : ∀ e ∈ Opcode.helperArity, e.2 ≤ 5 := by decide
      obtain ⟨l₁, l₂, heq, _⟩ := List.lookup_eq_some_iff.mp hl
      exact hall (helper, n) (by rw [heq]; simp)
  omega

theorem Instr.register_of_needs (h : r ∈ i.needs) : 0 ≤ r ∧ r < 16 := by
  cases hf : Fields.decode i.word with
  | error e => simp [Instr.needs, hf] at h
  | ok f =>
    rw [Instr.needs_eq hf] at h
    split at h
    · exact register_of_helperArguments h
    · exact Fields.register_of_inputs hf h

/-- Some instruction of a sequence reads a register that no earlier one writes. -/
def ReadFirst (body : List Instr) (r : Int) : Prop :=
  ∃ pre i post, body = pre ++ i :: post ∧ r ∈ i.needs ∧ ∀ j ∈ pre, r ∉ j.sets

namespace Liveness

variable {s : Summary}

/-! ## Summaries -/

theorem Summary.read_spec {registers : List Int} :
    (s.read registers p).defs = s.defs ∧ ∀ r, (s.read registers p).uses.has r = true ↔
      s.uses.has r = true ∨ r ∈ registers ∧ s.defs.has r = false := by
  unfold Summary.read
  induction registers generalizing s with
  | nil => simp
  | cons x xs ih =>
    rw [List.foldl_cons]
    by_cases hx : s.defs.has x = true
    · rw [if_pos hx]
      refine ⟨ih.1, ?_⟩
      intro r
      rw [ih.2, List.mem_cons]
      constructor
      · tauto
      · intro h
        rcases h with h | ⟨rfl | h, hd⟩
        · exact .inl h
        · rw [hx] at hd
          cases hd
        · exact .inr ⟨h, hd⟩
    · rw [if_neg hx]
      refine ⟨ih.1, ?_⟩
      intro r
      rw [ih.2, List.mem_cons]
      simp only [RegMap.has_put]
      constructor
      · intro h
        rcases h with (h | rfl) | ⟨h, hd⟩
        · exact .inl h
        · exact .inr ⟨.inl rfl, by simpa using hx⟩
        · exact .inr ⟨.inr h, hd⟩
      · tauto

/-- Adding an instruction to a summary. -/
theorem Summary.add_spec (hi : i.FromWord) : ∃ t, s.add i = .ok t
      ∧ (∀ r, t.defs.has r = true ↔ s.defs.has r = true ∨ r ∈ i.sets)
      ∧ ∀ r, t.uses.has r = true ↔
          s.uses.has r = true ∨ r ∈ i.needs ∧ s.defs.has r = false := by
  obtain ⟨f, hf, hin, hout⟩ := hi
  rw [Instr.needs_eq hf]
  unfold Summary.add Instr.sets
  rw [hf]
  show ∃ t, (if f.isCall then _ else _) = Except.ok t ∧ _
  by_cases hcall : f.isCall = true
  · simp only [hcall, if_true]
    refine ⟨_, rfl, ?_, ?_⟩
    · intro r
      unfold Summary.write
      dsimp only
      rw [RegMap.has_put, Summary.read_spec.1, List.mem_singleton]
    · intro r
      unfold Summary.write
      dsimp only
      rw [Summary.read_spec.2]
  · have hsets : ∀ r, r ∈ (if f.isNop = true then [] else f.output?.toList) ↔
        i.output.map Operand.register = some r := by
      intro r
      rw [hout]
      split <;> simp
    simp only [hcall, if_false, Bool.false_eq_true, hsets]
    rw [hin]
    cases ho : i.output with
    | none =>
      refine ⟨_, rfl, ?_, fun r => Summary.read_spec.2 r⟩
      intro r
      rw [Summary.read_spec.1]
      simp
    | some o =>
      refine ⟨_, rfl, ?_, ?_⟩
      · intro r
        unfold Summary.write
        dsimp only
        rw [RegMap.has_put, Summary.read_spec.1, Option.map_some, Option.some.injEq,
          eq_comm (a := r)]
      · intro r
        unfold Summary.write
        dsimp only
        rw [Summary.read_spec.2]

theorem readFirst_append {xs ys : List Instr} :
    ReadFirst (xs ++ ys) r ↔ ReadFirst xs r ∨ (∀ j ∈ xs, r ∉ j.sets) ∧ ReadFirst ys r := by
  constructor
  · rintro ⟨pre, i, post, heq, hneeds, hpre⟩
    rcases List.append_eq_append_iff.mp heq with ⟨mid, rfl, rfl⟩ | ⟨mid, rfl, hmid⟩
    · refine .inr ⟨fun j hj => hpre j (by simp [hj]), mid, i, post, rfl, hneeds, ?_⟩
      intro j hj
      exact hpre j (by simp [hj])
    · cases mid with
      | nil => exact .inr ⟨fun j hj => hpre j (by simpa using hj), [], i, post, hmid.symm, hneeds,
          by simp⟩
      | cons k mid =>
        obtain ⟨rfl, rfl⟩ := List.cons.inj hmid
        exact .inl ⟨pre, i, mid, rfl, hneeds, hpre⟩
  · intro h
    rcases h with ⟨pre, i, post, rfl, hneeds, hpre⟩ | ⟨hnone, pre, i, post, rfl, hneeds, hpre⟩
    · exact ⟨pre, i, post ++ ys, by simp, hneeds, hpre⟩
    · refine ⟨xs ++ pre, i, post, by simp, hneeds, ?_⟩
      intro j hj
      rcases List.mem_append.mp hj with hj | hj
      · exact hnone j hj
      · exact hpre j hj

theorem not_readFirst_nil : ¬ ReadFirst [] r := by
  simp [ReadFirst]

theorem readFirst_singleton : ReadFirst [i] r ↔ r ∈ i.needs := by
  constructor
  · rintro ⟨pre, j, post, heq, hneeds, _⟩
    have hj : j ∈ [i] := by simp [heq]
    rwa [List.mem_singleton.mp hj] at hneeds
  · intro h
    exact ⟨[], i, [], rfl, h, by simp⟩

theorem summarise_spec {body : List Instr} (hbody : ∀ i ∈ body, i.FromWord) :
    ∃ s, summarise body = .ok s
      ∧ (∀ r, s.defs.has r = true ↔ ∃ i ∈ body, r ∈ i.sets)
      ∧ ∀ r, s.uses.has r = true ↔ ReadFirst body r := by
  unfold summarise
  induction body using List.reverseRecOn with
  | nil => exact ⟨{}, rfl, by simp [RegMap.has], by simp [RegMap.has, not_readFirst_nil]⟩
  | append_singleton body i ih =>
    obtain ⟨s, hs, hdefs, huses⟩ := ih fun j hj => hbody j (List.mem_append_left _ hj)
    obtain ⟨t, ht, hdefs', huses'⟩ := Summary.add_spec (s := s) (hbody i (by simp))
    refine ⟨t, ?_, ?_, ?_⟩
    · rw [List.foldlM_append]
      exact bind_eq_ok.mpr ⟨s, hs, bind_eq_ok.mpr ⟨t, ht, rfl⟩⟩
    · intro r
      rw [hdefs', hdefs]
      simp only [List.mem_append, List.mem_singleton]
      constructor
      · intro h
        rcases h with ⟨j, hj, hr⟩ | hr
        · exact ⟨j, .inl hj, hr⟩
        · exact ⟨i, .inr rfl, hr⟩
      · rintro (⟨j, hj | rfl, hr⟩)
        · exact .inl ⟨j, hj, hr⟩
        · exact .inr hr
    · intro r
      have hnone : s.defs.has r = false ↔ ∀ j ∈ body, r ∉ j.sets := by
        rw [Bool.eq_false_iff, ne_eq, hdefs]
        push Not
        exact Iff.rfl
      rw [huses', huses, hnone, readFirst_append, readFirst_singleton]
      exact or_congr_right and_comm

end Liveness
end BpfLanes
