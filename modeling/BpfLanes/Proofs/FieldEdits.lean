import BpfLanes.Proofs.WordCodec
import Mathlib.Data.List.Basic

/-! # Editing one field of a word

Each field of a word has a step that replaces it. Seen through the fields, the step
puts a value into its own field and touches no other; and since words with the same
fields are the same, all that holds of putting values into fields holds of words.
-/

namespace BpfLanes

variable {v x : Int} {registers : List Int} {w : Word}

/-- The fields of an instruction by name. -/
inductive Field where
  | opcode
  | target
  | source
  | offset
  | immediate
  deriving DecidableEq, Repr

namespace Field

open Word (Proper unpacked)

/-- What a field holds. -/
def value : Field → Fields → Int
  | opcode, f => f.opcode
  | target, f => f.dst
  | source, f => f.src
  | offset, f => f.offset
  | immediate, f => f.immediate

/-- A value is put into a field. -/
def put : Field → Int → Fields → Fields
  | opcode, v, f => { f with opcode := v }
  | target, v, f => { f with dst := v }
  | source, v, f => { f with src := v }
  | offset, v, f => { f with offset := v }
  | immediate, v, f => { f with immediate := v }

/-- The step that replaces a field of a word. -/
def edit : Field → Int → Word → Except Fault Word
  | opcode, v, w => .ok (w.setOpcode v)
  | target, v, w => w.setRegister v Word.targetShift
  | source, v, w => w.setRegister v Word.sourceShift
  | offset, v, w => w.setOffset v
  | immediate, v, w => w.setImmediate v

/-- The values that can be written to a field. A register is handed over as a byte, and
    any number is taken for an opcode. -/
def Takes : Field → Int → Prop
  | opcode, _ => True
  | target, v => 0 ≤ v ∧ v < 2 ^ 8
  | source, v => 0 ≤ v ∧ v < 2 ^ 8
  | offset, v => -2 ^ 15 ≤ v ∧ v < 2 ^ 15
  | immediate, v => 0 ≤ v ∧ v < 2 ^ 32

instance : (k : Field) → (v : Int) → Decidable (k.Takes v)
  | opcode, _ => isTrue trivial
  | target, v => inferInstanceAs (Decidable (0 ≤ v ∧ v < 2 ^ 8))
  | source, v => inferInstanceAs (Decidable (0 ≤ v ∧ v < 2 ^ 8))
  | offset, v => inferInstanceAs (Decidable (-2 ^ 15 ≤ v ∧ v < 2 ^ 15))
  | immediate, v => inferInstanceAs (Decidable (0 ≤ v ∧ v < 2 ^ 32))

/-- What a field keeps of a value that is put into it. -/
def stored : Field → Int → Int
  | opcode, v => v % 2 ^ 8
  | target, v => v % 2 ^ 4
  | source, v => v % 2 ^ 4
  | offset, v => v
  | immediate, v => v

/-! ## Putting values into fields -/

theorem put_put (k : Field) (u v : Int) (f : Fields) : k.put v (k.put u f) = k.put v f := by
  cases k <;> rfl

theorem put_value (k : Field) (f : Fields) : k.put (k.value f) f = f := by
  cases k <;> rfl

theorem put_comm {j k : Field} (h : j ≠ k) (u v : Int) (f : Fields) :
    k.put v (j.put u f) = j.put u (k.put v f) := by
  revert h
  cases j <;> cases k <;> simp [put]

end Field

namespace Word

/-! ## Writing the immediate -/

theorem bytes_of_word (h : x / 2 ^ 0 % 2 ^ 32 = v % 2 ^ 32) :
    x / 2 ^ 24 % 2 ^ 8 = v / 2 ^ 24 % 2 ^ 8 ∧ x / 2 ^ 16 % 2 ^ 8 = v / 2 ^ 16 % 2 ^ 8
      ∧ x / 2 ^ 8 % 2 ^ 8 = v / 2 ^ 8 % 2 ^ 8 ∧ x / 2 ^ 0 % 2 ^ 8 = v % 2 ^ 8 := by
  refine ⟨?_, ?_, ?_, ?_⟩ <;> omega

theorem unpacked_writeImmediate (v : Int) (w : Word) :
    unpacked (writeField 0 32 v w) = { unpacked w with
      immediate := v / 2 ^ 24 % 2 ^ 8 + v / 2 ^ 16 % 2 ^ 8 * 2 ^ 8 + v / 2 ^ 8 % 2 ^ 8 * 2 ^ 16
        + v % 2 ^ 8 * 2 ^ 24 } := by
  obtain ⟨h₃, h₂, h₁, h₀⟩ := bytes_of_word (writeField_same 0 32 v w)
  unfold unpacked
  rw [h₃, h₂, h₁, h₀, writeField_above 0 32 v w (by decide : 0 + 32 ≤ 56),
    writeField_above 0 32 v w (by decide : 0 + 32 ≤ 52),
    writeField_above 0 32 v w (by decide : 0 + 32 ≤ 48),
    writeField_above 0 32 v w (by decide : 0 + 32 ≤ 40),
    writeField_above 0 32 v w (by decide : 0 + 32 ≤ 32)]

theorem immediate_round_trip (h : 0 ≤ x ∧ x < 2 ^ 32) :
    swapBytes 4 false x / 2 ^ 24 % 2 ^ 8 + swapBytes 4 false x / 2 ^ 16 % 2 ^ 8 * 2 ^ 8
      + swapBytes 4 false x / 2 ^ 8 % 2 ^ 8 * 2 ^ 16 + swapBytes 4 false x % 2 ^ 8 * 2 ^ 24
      = x := by
  obtain ⟨h₀, h₁, h₂, h₃⟩ := bytes_of_immediate (swapBytes_four h) (by omega) (by omega) (by omega)
    (by omega)
  have hswap : 0 ≤ swapBytes 4 false x ∧ swapBytes 4 false x < 2 ^ 32 :=
    (swapBytes_spec (show InBytes 4 false x from h)).1
  have hsum := sum_of_four x
  rw [Int.emod_eq_of_lt h.1 h.2] at hsum
  rw [Int.emod_eq_of_lt hswap.1 hswap.2] at h₀ h₁ h₂ h₃
  rw [h₀, h₁, h₂, h₃, hsum]

/-! ## Values handed over as bytes -/

section
variable (size : Nat) (signed : Bool) (g : Int → Except Fault Word)

theorem bind_of_inBytes (h : InBytes size signed x) :
    (reverseBytes size signed x >>= g) = g (swapBytes size signed x) := by
  rw [reverseBytes_natCast, if_pos (fits_iff.mpr (.inl h))]
  rfl

theorem bind_of_not_inBytes (hsize : 0 < size) (h : ¬ InBytes size signed x) :
    (reverseBytes size signed x >>= g) = .error .tooWide := by
  have hfits : ¬ fits size signed x = true := by
    rw [fits_iff]
    rintro (hin | ⟨_, hzero, _⟩)
    · exact h hin
    · omega
  rw [reverseBytes_natCast, if_neg hfits]
  rfl

end

theorem swapBytes_one (h : 0 ≤ x ∧ x < 2 ^ 8) : swapBytes 1 false x = x := by
  simp only [swapBytes, weight_eq, lowBytes, ofLowBytes, List.reverse_cons, List.reverse_nil,
    List.nil_append, Bool.false_and, Bool.false_eq_true, if_false]
  omega

end Word

namespace Field

open Word (Proper unpacked writeField writeField_mem)

/-! ## Editing -/

theorem takes_offset_iff : offset.Takes v ↔ Word.InBytes 2 true v := by
  show -2 ^ 15 ≤ v ∧ v < 2 ^ 15 ↔ -2 ^ (8 * 2) ≤ 2 * v ∧ 2 * v < 2 ^ (8 * 2)
  omega

variable {k : Field}

theorem edit_accepts (hw : Proper w) (hv : k.Takes v) :
    ∃ w', k.edit v w = .ok w' ∧ Proper w' ∧ unpacked w' = k.put (k.stored v) (unpacked w) := by
  cases k with
  | opcode =>
    exact ⟨_, rfl, writeField_mem 56 8 v w (by decide) hw, Word.unpacked_writeOpcode v w⟩
  | target =>
    have hset : target.edit v w = .ok (writeField 48 4 (Word.swapBytes 1 false v) w) :=
      Word.bind_of_inBytes 1 false _ hv
    rw [Word.swapBytes_one hv] at hset
    exact ⟨_, hset, writeField_mem 48 4 v w (by decide) hw, Word.unpacked_writeTarget v w⟩
  | source =>
    have hset : source.edit v w = .ok (writeField 52 4 (Word.swapBytes 1 false v) w) :=
      Word.bind_of_inBytes 1 false _ hv
    rw [Word.swapBytes_one hv] at hset
    exact ⟨_, hset, writeField_mem 52 4 v w (by decide) hw, Word.unpacked_writeSource v w⟩
  | offset =>
    have hset : offset.edit v w = .ok (writeField 32 16 (Word.swapBytes 2 true v) w) :=
      Word.bind_of_inBytes 2 true _ (takes_offset_iff.mp hv)
    exact ⟨_, hset, Word.setOffset_spec hw hset⟩
  | immediate =>
    have hset : immediate.edit v w = .ok (writeField 0 32 (Word.swapBytes 4 false v) w) :=
      Word.bind_of_inBytes 4 false _ hv
    refine ⟨_, hset, writeField_mem 0 32 _ w (by decide) hw, ?_⟩
    rw [Word.unpacked_writeImmediate, Word.immediate_round_trip hv]
    rfl

theorem edit_refuses (hv : ¬ k.Takes v) : k.edit v w = .error .tooWide := by
  cases k with
  | opcode => exact absurd trivial hv
  | target => exact Word.bind_of_not_inBytes 1 false _ (by decide) hv
  | source => exact Word.bind_of_not_inBytes 1 false _ (by decide) hv
  | offset =>
    exact Word.bind_of_not_inBytes 2 true _ (by decide) (mt takes_offset_iff.mpr hv)
  | immediate => exact Word.bind_of_not_inBytes 4 false _ (by decide) hv

theorem edit_eq_ok_iff {w' : Word} (hw : Proper w) : k.edit v w = .ok w' ↔
      k.Takes v ∧ Proper w' ∧ unpacked w' = k.put (k.stored v) (unpacked w) := by
  by_cases hv : k.Takes v
  · obtain ⟨w₁, hedit, hproper, hfields⟩ := edit_accepts hw hv
    rw [hedit, Except.ok.injEq]
    constructor
    · rintro rfl
      exact ⟨hv, hproper, hfields⟩
    · rintro ⟨_, hproper', hfields'⟩
      exact Word.eq_of_unpacked hproper hproper' (hfields.trans hfields'.symm)
  · rw [edit_refuses hv]
    simp [hv]

/-! ## Laws -/

theorem takes_value {f : Fields} (hf : f.reduced = f) (k : Field) :
    k.Takes (k.value f) ∧ k.stored (k.value f) = k.value f := by
  cases k with
  | opcode => exact ⟨trivial, congrArg Fields.opcode hf⟩
  | target =>
    have hdst : f.dst % 2 ^ 4 = f.dst := congrArg Fields.dst hf
    refine ⟨?_, hdst⟩
    show 0 ≤ f.dst ∧ f.dst < 2 ^ 8
    omega
  | source =>
    have hsrc : f.src % 2 ^ 4 = f.src := congrArg Fields.src hf
    refine ⟨?_, hsrc⟩
    show 0 ≤ f.src ∧ f.src < 2 ^ 8
    omega
  | offset =>
    have hoffset : f.offset.bmod (2 ^ 16) = f.offset := congrArg Fields.offset hf
    have hlow := Int.le_bmod (x := f.offset) (by decide : 0 < 2 ^ 16)
    have hhigh := Int.bmod_lt (x := f.offset) (by decide : 0 < 2 ^ 16)
    refine ⟨?_, rfl⟩
    show -2 ^ 15 ≤ f.offset ∧ f.offset < 2 ^ 15
    omega
  | immediate =>
    have himmediate : f.immediate % 2 ^ 32 = f.immediate := congrArg Fields.immediate hf
    refine ⟨?_, rfl⟩
    show 0 ≤ f.immediate ∧ f.immediate < 2 ^ 32
    omega

section
variable (hw : Proper w)
include hw

theorem edit_edit (k : Field) {u : Int} (hu : k.Takes u) (v : Int) :
    (k.edit u w >>= k.edit v) = k.edit v w := by
  obtain ⟨w₁, hedit, hw₁, hfields₁⟩ := edit_accepts hw hu
  rw [hedit]
  show k.edit v w₁ = k.edit v w
  by_cases hv : k.Takes v
  · obtain ⟨w₂, hedit₂, hw₂, hfields₂⟩ := edit_accepts hw hv
    rw [hedit₂, edit_eq_ok_iff hw₁, hfields₁, put_put]
    exact ⟨hv, hw₂, hfields₂⟩
  · rw [edit_refuses hv, edit_refuses hv]

theorem edit_value (k : Field) : k.edit (k.value (unpacked w)) w = .ok w := by
  obtain ⟨htakes, hstored⟩ := takes_value (Word.reduced_unpacked hw) k
  rw [edit_eq_ok_iff hw, hstored, put_value]
  exact ⟨htakes, hw, rfl⟩

theorem edit_comm {j k : Field} (hjk : j ≠ k) (u v : Int) :
    (j.edit u w >>= k.edit v) = (k.edit v w >>= j.edit u) := by
  -- a value that is refused is refused for any word, so both orders fail alike
  by_cases hu : j.Takes u
  · obtain ⟨w₁, hedit₁, hw₁, hfields₁⟩ := edit_accepts hw hu
    rw [hedit₁]
    show k.edit v w₁ = _
    by_cases hv : k.Takes v
    · obtain ⟨w₂, hedit₂, hw₂, hfields₂⟩ := edit_accepts hw hv
      obtain ⟨w₃, hedit₃, hw₃, hfields₃⟩ := edit_accepts hw₂ hu
      rw [hedit₂]
      show _ = j.edit u w₂
      rw [hedit₃, edit_eq_ok_iff hw₁, hfields₁, put_comm hjk, ← hfields₂]
      exact ⟨hv, hw₃, hfields₃⟩
    · rw [edit_refuses hv, edit_refuses hv]
      rfl
  · rw [edit_refuses hu]
    by_cases hv : k.Takes v
    · obtain ⟨w₂, hedit₂, -, -⟩ := edit_accepts hw hv
      rw [hedit₂]
      exact (edit_refuses hu).symm
    · rw [edit_refuses hv]
      rfl

end
end Field

/-! ## The registers that a word reads -/

namespace Fields

/-- Whether the registers that an instruction reads are named in its word. -/
def namesInputs (f : Fields) : Bool :=
  Opcode.readsSource.contains f.opcode || Opcode.readsTarget.contains f.opcode
    || Opcode.readsBoth.contains f.opcode

/-- Puts registers into the fields that name what an instruction reads. -/
def withInputs (f : Fields) (registers : List Int) : Fields :=
  if Opcode.readsSource.contains f.opcode then { f with src := registers.getD 0 f.src }
  else if Opcode.readsTarget.contains f.opcode then { f with dst := registers.getD 0 f.dst }
  else { f with src := registers.getD 0 f.src, dst := registers.getD 1 f.dst }

variable {f : Fields}

theorem inputs_of_source (h : Opcode.readsSource.contains f.opcode = true) :
    f.inputs = [f.src] := by
  unfold inputs
  rw [if_pos h]

section
variable (hs : ¬ Opcode.readsSource.contains f.opcode = true)
include hs

theorem inputs_of_target (h : Opcode.readsTarget.contains f.opcode = true) :
    f.inputs = [f.dst] := by
  unfold inputs
  rw [if_neg hs, if_pos h]

variable (ht : ¬ Opcode.readsTarget.contains f.opcode = true)
include ht

theorem inputs_of_both (h : Opcode.readsBoth.contains f.opcode = true) :
    f.inputs = [f.src, f.dst] := by
  unfold inputs
  rw [if_neg hs, if_neg ht, if_pos h]

theorem readsBoth_of_namesInputs (h : f.namesInputs = true) :
    Opcode.readsBoth.contains f.opcode = true := by
  unfold namesInputs at h
  rw [Bool.not_eq_true] at hs ht
  rwa [hs, ht] at h

end

theorem inputs_withInputs (h : f.namesInputs = true)
    (hlength : registers.length = f.inputs.length) :
    (f.withInputs registers).inputs = registers := by
  unfold withInputs
  split
  · next hs =>
    rw [inputs_of_source hs] at hlength
    obtain ⟨r, rfl⟩ := List.length_eq_one_iff.mp hlength
    exact inputs_of_source (f := { f with src := r }) hs
  · next hs =>
    split
    · next ht =>
      rw [inputs_of_target hs ht] at hlength
      obtain ⟨r, rfl⟩ := List.length_eq_one_iff.mp hlength
      exact inputs_of_target (f := { f with dst := r }) hs ht
    · next ht =>
      have hb := readsBoth_of_namesInputs hs ht h
      rw [inputs_of_both hs ht hb] at hlength
      obtain ⟨r, q, rfl⟩ := List.length_eq_two.mp hlength
      exact inputs_of_both (f := { f with src := r, dst := q }) hs ht hb

theorem withInputs_inputs (h : f.namesInputs = true) : f.withInputs f.inputs = f := by
  unfold withInputs
  split
  · next hs => rw [inputs_of_source hs]; rfl
  · next hs =>
    split
    · next ht => rw [inputs_of_target hs ht]; rfl
    · next ht => rw [inputs_of_both hs ht (readsBoth_of_namesInputs hs ht h)]; rfl

theorem inputs_lt (hf : f.reduced = f) (h : f.namesInputs = true) :
    ∀ r ∈ f.inputs, 0 ≤ r ∧ r < 2 ^ 4 := by
  have hdst : f.dst % 2 ^ 4 = f.dst := congrArg Fields.dst hf
  have hsrc : f.src % 2 ^ 4 = f.src := congrArg Fields.src hf
  intro r hr
  have hr : r = f.src ∨ r = f.dst := by
    by_cases hs : Opcode.readsSource.contains f.opcode = true
    · rw [inputs_of_source hs] at hr
      exact .inl (List.mem_singleton.mp hr)
    · by_cases ht : Opcode.readsTarget.contains f.opcode = true
      · rw [inputs_of_target hs ht] at hr
        exact .inr (List.mem_singleton.mp hr)
      · rw [inputs_of_both hs ht (readsBoth_of_namesInputs hs ht h)] at hr
        simpa using hr
  omega
end Fields

namespace Word

theorem edit_register (hw : Proper w) {r : Int} (hr : 0 ≤ r ∧ r < 2 ^ 4) :
    (∃ w', setSource w r = .ok w' ∧ Proper w' ∧ unpacked w' = { unpacked w with src := r })
      ∧ ∃ w', setTarget w r = .ok w' ∧ Proper w' ∧ unpacked w' = { unpacked w with dst := r } := by
  have hbyte : 0 ≤ r ∧ r < 2 ^ 8 := by omega
  have hmod : r % 2 ^ 4 = r := Int.emod_eq_of_lt hr.1 hr.2
  constructor
  · obtain ⟨w', hedit, hw', hfields⟩ := Field.edit_accepts (k := .source) hw hbyte
    exact ⟨w', hedit, hw', hfields.trans (congrArg (Field.source.put · (unpacked w)) hmod)⟩
  · obtain ⟨w', hedit, hw', hfields⟩ := Field.edit_accepts (k := .target) hw hbyte
    exact ⟨w', hedit, hw', hfields.trans (congrArg (Field.target.put · (unpacked w)) hmod)⟩

theorem setInputs_spec (hw : Proper w) (h : (unpacked w).namesInputs = true)
    (hlength : registers.length = (unpacked w).inputs.length)
    (hregisters : ∀ r ∈ registers, 0 ≤ r ∧ r < 2 ^ 4) :
    ∃ w', setInputs w registers = .ok (some w') ∧ Proper w'
      ∧ unpacked w' = (unpacked w).withInputs registers := by
  unfold setInputs Fields.withInputs
  rw [decode_proper hw]
  by_cases hs : Opcode.readsSource.contains (unpacked w).opcode = true
  · rw [Fields.inputs_of_source hs] at hlength
    obtain ⟨r, rfl⟩ := List.length_eq_one_iff.mp hlength
    obtain ⟨⟨w', hset, hw', hfields⟩, -⟩ := edit_register hw (hregisters r (by simp))
    refine ⟨w', ?_, hw', ?_⟩
    · show (if _ then (setSource w r >>= fun x => pure (some x)) else _) = _
      rw [if_pos hs, hset]
      rfl
    · rwa [if_pos hs]
  by_cases ht : Opcode.readsTarget.contains (unpacked w).opcode = true
  · rw [Fields.inputs_of_target hs ht] at hlength
    obtain ⟨r, rfl⟩ := List.length_eq_one_iff.mp hlength
    obtain ⟨-, w', hset, hw', hfields⟩ := edit_register hw (hregisters r (by simp))
    refine ⟨w', ?_, hw', ?_⟩
    · show (if _ then _ else if _ then (setTarget w r >>= fun x => pure (some x)) else _) = _
      rw [if_neg hs, if_pos ht, hset]
      rfl
    · rwa [if_neg hs, if_pos ht]
  · have hb := Fields.readsBoth_of_namesInputs hs ht h
    rw [Fields.inputs_of_both hs ht hb] at hlength
    obtain ⟨r, q, rfl⟩ := List.length_eq_two.mp hlength
    obtain ⟨⟨w₁, hset₁, hw₁, hfields₁⟩, -⟩ := edit_register hw (hregisters r (by simp))
    obtain ⟨-, w₂, hset₂, hw₂, hfields₂⟩ := edit_register hw₁ (hregisters q (by simp))
    refine ⟨w₂, ?_, hw₂, ?_⟩
    · show (if _ then _ else if _ then _ else if _ then
        (setSource w r >>= fun x => setTarget x q >>= fun y => pure (some y)) else _) = _
      rw [if_neg hs, if_neg ht, if_pos hb, hset₁]
      show (setTarget w₁ q >>= fun y => pure (some y)) = _
      rw [hset₂]
      rfl
    · rw [if_neg hs, if_neg ht, hfields₂, hfields₁]
      rfl

/-- The editing steps of a word are lenses. Each puts a value that it accepts into its
    own field and keeps all others, and refuses every other value; of two edits of one
    field the last one counts, writing back what a field holds changes nothing, and edits
    of different fields commute. Likewise for the registers that a word reads, taken
    together. -/
theorem edits_are_lenses {w : Word} (hw : Proper w) :
    ∃ f, Fields.decode w = .ok f
      ∧ (∀ (k : Field) (v : Int), k.Takes v →
          ∃ w', k.edit v w = .ok w' ∧ Proper w' ∧ Fields.decode w' = .ok (k.put (k.stored v) f))
      ∧ (∀ (k : Field) (v : Int), ¬ k.Takes v → k.edit v w = .error .tooWide)
      ∧ (∀ (k : Field) (u v : Int), k.Takes u → (k.edit u w >>= k.edit v) = k.edit v w)
      ∧ (∀ k : Field, k.edit (k.value f) w = .ok w)
      ∧ (∀ (j k : Field) (u v : Int), j ≠ k →
          (j.edit u w >>= k.edit v) = (k.edit v w >>= j.edit u))
      ∧ (f.namesInputs = true → ∀ registers : List Int, registers.length = f.inputs.length →
          (∀ r ∈ registers, 0 ≤ r ∧ r < 16) →
          ∃ w', w.setInputs registers = .ok (some w') ∧ Proper w'
            ∧ Fields.decode w' = .ok (f.withInputs registers)
            ∧ (f.withInputs registers).inputs = registers)
      ∧ (f.namesInputs = true → w.setInputs f.inputs = .ok (some w)) := by
  refine ⟨unpacked w, decode_proper hw, ?_, fun k v => Field.edit_refuses,
    fun k u v hu => Field.edit_edit hw k hu v, Field.edit_value hw,
    fun j k u v hjk => Field.edit_comm hw hjk u v, ?_, ?_⟩
  · intro k v hv
    obtain ⟨w', hedit, hw', hfields⟩ := Field.edit_accepts hw hv
    exact ⟨w', hedit, hw', hfields ▸ decode_proper hw'⟩
  · intro h registers hlength hregisters
    obtain ⟨w', hset, hw', hfields⟩ := setInputs_spec hw h hlength hregisters
    exact ⟨w', hset, hw', hfields ▸ decode_proper hw', Fields.inputs_withInputs h hlength⟩
  · intro h
    obtain ⟨w', hset, hw', hfields⟩ :=
      setInputs_spec hw h rfl (Fields.inputs_lt (reduced_unpacked hw) h)
    rw [Fields.withInputs_inputs h] at hfields
    rw [hset, eq_of_unpacked hw' hw hfields]

/-- A comparison with a jump back. -/
def compareBack : Word := 0x2d23fbff00000000

/-- The last of two offsets counts, and the registers can be written back. -/
theorem edits_are_lenses_compareBack :
    Proper compareBack
      ∧ (Field.offset.edit 9 compareBack >>= Field.offset.edit (-5)) = .ok compareBack
      ∧ compareBack.setInputs [2, 3] = .ok (some compareBack) := by
  have hw : Proper compareBack := ⟨by decide, by decide⟩
  obtain ⟨f, hf, -, -, htwice, hback, -, -, hinputs⟩ := edits_are_lenses hw
  obtain rfl : f = { opcode := 0x2d, dst := 3, src := 2, offset := -5, immediate := 0 } := by
    exact Except.ok.inj (hf.symm.trans (by decide))
  refine ⟨hw, ?_, hinputs (by decide)⟩
  rw [htwice .offset 9 (-5) (by decide)]
  exact hback .offset

end Word
end BpfLanes
