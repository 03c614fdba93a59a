import BpfLanes.Proofs.SixByteCopies

/-! # Machines with a stack

A machine has registers, a stack that is reached through its own register only, and
everything else. Of what instructions do, only this much is fixed: immediates,
stores to the stack, and that no instruction depends on registers that it does not
read or sets registers that it does not set.

Leaving out settings to zero and stores to the stack is compared with doing
everything. Which registers and bytes surely hold zero (`zerosAfter`) decides about
the stores, on all such machines at once.
-/

namespace BpfLanes

open Word (unpacked)

variable {b : Int} {xs : List (Word × Int)}

namespace Fields

/-- The registers that an instruction reads. A call reads the arguments of its helper. -/
def reads (f : Fields) : List Int :=
  if f.isCall then Opcode.helperArguments f.immediate else f.inputs

/-- How many bytes a store of an immediate writes. -/
def immediateWidths : List (Int × Int) := [(0x62, 4), (0x6a, 2), (0x72, 1), (0x7a, 8)]

/-- How many bytes a store writes. -/
def width (f : Fields) : Int :=
  f.storeBytes?.getD ((immediateWidths.lookup f.opcode).getD 0)

/-- Stores to the stack, be it a register or an immediate. -/
def isStackStore (f : Fields) : Bool := f.isStore && f.dst == Opcode.stackRegister

/-- The bytes of the stack that an instruction stores to. -/
def covered (f : Fields) : List Int :=
  if f.isStackStore then Peephole.strip f.offset 1 f.width.toNat else []

variable {f : Fields}

theorem isStackStore_of_storesToStack (h : f.storesToStack = true) : f.isStackStore = true := by
  simp only [storesToStack, Bool.and_eq_true, Option.isSome_iff_exists] at h
  obtain ⟨⟨bits, hbits⟩, hdst⟩ := h
  rw [isStackStore, isStore_of_storeBits? hbits, hdst]
  rfl

theorem isStackStore_of_mem_covered (h : b ∈ f.covered) : f.isStackStore = true := by
  unfold covered at h
  split at h
  · assumption
  · cases h

theorem isStore_of_mem_covered (h : b ∈ f.covered) : f.isStore = true := by
  have hstore := isStackStore_of_mem_covered h
  rw [isStackStore, Bool.and_eq_true] at hstore
  exact hstore.1

theorem offset_mem_covered (h : f.storesToStack = true) : f.offset ∈ f.covered := by
  have hpos : 0 < f.width := by
    simp only [storesToStack, Bool.and_eq_true, Option.isSome_iff_exists] at h
    obtain ⟨⟨bits, hbits⟩, -⟩ := h
    have hbytes : f.storeBytes? = some (Int.tdiv bits 8) := by rw [storeBytes?, hbits]; rfl
    rw [width, hbytes]
    exact (isWidth_storeBytes? hbytes).pos
  rw [covered, if_pos (isStackStore_of_storesToStack h)]
  exact Peephole.mem_strip.mpr ⟨0, by omega, by simp⟩

theorem sets_of_isMoveImmediate (h : f.isMoveImmediate = true) (r : Int) :
    f.sets r = true ↔ r = f.dst := by
  have hopcode : f.opcode = Opcode.moveImmediate := by simpa [isMoveImmediate] using h
  have hstore : f.isStore = false := by rw [isStore, hopcode]; rfl
  have hcall : f.isCall = false := by rw [isCall, hopcode]; rfl
  have hout : f.output? = some f.dst := by rw [output?, hopcode]; rfl
  simp only [sets, hstore, hcall, hout, Bool.not_false, Bool.true_and, Bool.false_eq_true, if_false,
    beq_iff_eq, Option.some.injEq]
  exact eq_comm

end Fields

namespace Stack

/-! ## Execution -/

/-- What a machine holds. -/
structure Machine (V B W : Type) where
  registers : Int → V
  /-- the bytes of the stack, by their offset -/
  stack : Int → B
  rest : W

/-- What instructions mean. -/
structure Meaning (V B W : Type) where
  constant : Int → V
  byte : V → Int → B
  zero : B
  byte_constant_zero : ∀ k, byte (constant 0) k = zero
  /-- the values that any other instruction sets registers to, and what it does to the rest -/
  compute : Fields → (Int → V) → (Int → B) → W → (Int → V) × W
  compute_congr : ∀ f ρ ρ' σ ω, (∀ r ∈ f.reads, ρ r = ρ' r) → compute f ρ σ ω = compute f ρ' σ ω

variable {V B W : Type} {M : Meaning V B W} {m n : Machine V B W} {x : Word × Int} {f : Fields}

/-- The value that a store puts down. -/
def Meaning.stored (M : Meaning V B W) (f : Fields) (m : Machine V B W) : V :=
  if f.isImmediateStore then M.constant f.immediate else m.registers f.src

/-- What an instruction does to a machine. -/
def Meaning.step (M : Meaning V B W) (f : Fields) (m : Machine V B W) : Machine V B W where
  registers r :=
    if f.sets r then
      if f.isMoveImmediate then M.constant f.immediate
      else (M.compute f m.registers m.stack m.rest).1 r
    else m.registers r
  stack b := if b ∈ f.covered then M.byte (M.stored f m) (b - f.offset) else m.stack b
  rest :=
    if f.isMoveImmediate || f.isStackStore then m.rest
    else (M.compute f m.registers m.stack m.rest).2

/-- What some instructions do, one after another. -/
def Meaning.run (M : Meaning V B W) (xs : List (Word × Int)) (m : Machine V B W) :
    Machine V B W :=
  xs.foldl (fun m x => M.step (unpacked x.1) m) m

theorem Meaning.run_concat (M : Meaning V B W) (xs : List (Word × Int)) (x : Word × Int)
    (m : Machine V B W) : M.run (xs ++ [x]) m = M.step (unpacked x.1) (M.run xs m) := by
  simp [run]

/-! ## What is said of every instruction -/

/-- Something holds of every instruction and those before it. -/
def Each (P : List (Word × Int) → Word × Int → Prop) (xs : List (Word × Int)) : Prop :=
  ∀ n, ∀ h : n < xs.length, P (xs.take n) (xs.get ⟨n, h⟩)

instance (P : List (Word × Int) → Word × Int → Prop) [∀ before x, Decidable (P before x)]
    (xs : List (Word × Int)) : Decidable (Each P xs) :=
  inferInstanceAs (Decidable (∀ n, ∀ h : n < xs.length, P (xs.take n) (xs.get ⟨n, h⟩)))

variable {P Q : List (Word × Int) → Word × Int → Prop}

theorem each_nil : Each P [] := fun _ h => absurd h (Nat.not_lt_zero _)

theorem each_concat : Each P (xs ++ [x]) ↔ Each P xs ∧ P xs x := by
  constructor
  · intro h
    refine ⟨fun n hn => ?_, ?_⟩
    · have hstep := h n (by rw [List.length_append]; omega)
      rwa [List.take_append_of_le_length (by omega), List.get_eq_getElem,
        List.getElem_append_left hn] at hstep
    · have hstep := h xs.length (by simp)
      simpa using hstep
  · intro ⟨hall, hlast⟩ n hn
    rw [List.length_append, List.length_singleton] at hn
    by_cases hlt : n < xs.length
    · rw [List.take_append_of_le_length (by omega), List.get_eq_getElem,
        List.getElem_append_left hlt]
      exact hall n hlt
    · obtain rfl : n = xs.length := by omega
      simpa using hlast

theorem Each.take (h : Each P xs) (n : Nat) : Each P (xs.take n) := by
  intro k hk
  rw [List.length_take] at hk
  have hstep := h k (by omega)
  rwa [List.take_take, min_eq_left (by omega), List.get_eq_getElem, List.getElem_take]

theorem Each.imp (h : Each P xs) (himp : ∀ before, ∀ x ∈ xs, P before x → Q before x) :
    Each Q xs :=
  fun n hn => himp _ _ (List.get_mem _ _) (h n hn)

/-! ## Surely zero -/

/-- Which registers and which bytes of the stack surely hold zero. -/
structure Zeros where
  registers : Int → Bool
  bytes : Int → Bool

/-- Whether a store surely puts down zero. -/
def Zeros.stores (z : Zeros) (f : Fields) : Bool :=
  if f.isImmediateStore then f.immediate == 0 else z.registers f.src

/-- What surely holds zero after an instruction. -/
def Zeros.step (z : Zeros) (f : Fields) : Zeros where
  registers r := if f.sets r then f.zeroes else z.registers r
  bytes b := if b ∈ f.covered then z.stores f else z.bytes b

/-- What surely holds zero after some instructions: the registers that were last set to
    zero, and the bytes that were not stored to or last with zero. -/
def zerosAfter (xs : List (Word × Int)) : Zeros :=
  xs.foldl (fun z x => z.step (unpacked x.1)) ⟨fun _ => false, fun _ => true⟩

theorem zerosAfter_concat (xs : List (Word × Int)) (x : Word × Int) :
    zerosAfter (xs ++ [x]) = (zerosAfter xs).step (unpacked x.1) := by
  simp [zerosAfter]

theorem zerosAfter_bytes (h : ∀ x ∈ xs, b ∉ (unpacked x.1).covered) :
    (zerosAfter xs).bytes b = true := by
  induction xs using List.reverseRecOn with
  | nil => rfl
  | append_singleton xs x ih =>
    rw [zerosAfter_concat]
    show (if b ∈ (unpacked x.1).covered then _ else (zerosAfter xs).bytes b) = true
    rw [if_neg (h x (by simp))]
    exact ih fun y hy => h y (List.mem_append_left _ hy)

theorem zerosAfter_sound (hm : ∀ b, m.stack b = M.zero) (xs : List (Word × Int)) :
    (∀ r, (zerosAfter xs).registers r = true → (M.run xs m).registers r = M.constant 0)
      ∧ ∀ b, (zerosAfter xs).bytes b = true → (M.run xs m).stack b = M.zero := by
  induction xs using List.reverseRecOn with
  | nil => exact ⟨nofun, fun b _ => hm b⟩
  | append_singleton xs x ih =>
    obtain ⟨hregisters, hbytes⟩ := ih
    rw [zerosAfter_concat, M.run_concat]
    constructor
    · intro r hr
      simp only [Zeros.step] at hr
      simp only [Meaning.step]
      split at hr
      · next hsets =>
        simp only [Fields.zeroes, Bool.and_eq_true, beq_iff_eq] at hr
        rw [if_pos hsets, if_pos hr.1, hr.2]
      · next hsets =>
        rw [if_neg hsets]
        exact hregisters r hr
    · intro b hb
      simp only [Zeros.step] at hb
      simp only [Meaning.step]
      split at hb
      · next hcovered =>
        rw [if_pos hcovered]
        unfold Zeros.stores at hb
        unfold Meaning.stored
        split at hb
        · next himm =>
          rw [if_pos himm, beq_iff_eq.mp hb, M.byte_constant_zero]
        · next himm =>
          rw [if_neg himm, hregisters _ hb, M.byte_constant_zero]
      · next hcovered =>
        rw [if_neg hcovered]
        exact hbytes b hb

/-! ## Leaving instructions out -/

/-- What remains when the instructions at some positions are left out. -/
def kept (dropped : List Int) (xs : List (Word × Int)) : List (Word × Int) :=
  xs.filter fun x => !dropped.contains x.2

/-- The registers whose last setting was left out. -/
def lostAfter (dropped : List Int) (xs : List (Word × Int)) : Int → Bool :=
  xs.foldl (fun lost x r => if (unpacked x.1).sets r then dropped.contains x.2 else lost r)
    fun _ => false

/-- No instruction that remains reads a register whose last setting was left out. -/
def ReadsKept (dropped : List Int) (xs : List (Word × Int)) : Prop :=
  Each (fun before x => x.2 ∉ dropped →
    ∀ r ∈ (unpacked x.1).reads, lostAfter dropped before r = false) xs

/-- At every point the stack is as it would be if nothing had been left out, whatever the
    instructions mean and whatever the machine held, as long as its stack was zero. -/
def KeepsStack (dropped : List Int) (xs : List (Word × Int)) : Prop :=
  ∀ (V B W : Type) (M : Meaning V B W) (m : Machine V B W), (∀ b, m.stack b = M.zero) →
    ∀ n, (M.run (kept dropped (xs.take n)) m).stack = (M.run (xs.take n) m).stack

/-- Leaving instructions out is safe. -/
structure Safe (dropped : List Int) (xs : List (Word × Int)) : Prop where
  reads : ReadsKept dropped xs
  stack : KeepsStack dropped xs

/-- Every store that was left out stores a register that was last set to zero to bytes
    that were not stored to before, or last with zero. -/
def Harmless (dropped : List Int) (xs : List (Word × Int)) : Prop :=
  Each (fun before y => y.2 ∈ dropped → (unpacked y.1).isStore = true →
    (zerosAfter before).registers (unpacked y.1).src = true
      ∧ ∀ b ∈ (unpacked y.1).covered, (zerosAfter before).bytes b = true) xs

instance (dropped : List Int) (xs : List (Word × Int)) : Decidable (ReadsKept dropped xs) :=
  inferInstanceAs (Decidable (Each _ xs))

instance (dropped : List Int) (xs : List (Word × Int)) : Decidable (Harmless dropped xs) :=
  inferInstanceAs (Decidable (Each _ xs))

/-- What may be left out at all: settings to zero, and stores of registers to the stack. -/
def Droppable (f : Fields) : Prop := f.zeroes = true ∨ f.storesToStack = true

section
variable {dropped : List Int}

theorem kept_concat_of_mem (h : x.2 ∈ dropped) : kept dropped (xs ++ [x]) = kept dropped xs := by
  simp [kept, h]

theorem kept_concat_of_not_mem (h : x.2 ∉ dropped) :
    kept dropped (xs ++ [x]) = kept dropped xs ++ [x] := by
  simp [kept, h]

theorem lostAfter_concat (r : Int) : lostAfter dropped (xs ++ [x]) r =
    if (unpacked x.1).sets r then dropped.contains x.2 else lostAfter dropped xs r := by
  simp [lostAfter]

/-- Two machines that hold the same but for some registers. -/
structure Agree {V B W : Type} (lost : Int → Bool) (m n : Machine V B W) : Prop where
  registers : ∀ r, lost r = false → m.registers r = n.registers r
  stack : m.stack = n.stack
  rest : m.rest = n.rest

variable {lost : Int → Bool}

theorem Agree.step (h : Agree lost m n) (hreads : ∀ r ∈ f.reads, lost r = false) :
    Agree (fun r => if f.sets r then false else lost r) (M.step f m) (M.step f n) := by
  have hcompute : M.compute f m.registers m.stack m.rest =
      M.compute f n.registers n.stack n.rest := by
    rw [h.stack, h.rest]
    exact M.compute_congr f _ _ _ _ fun r hr => h.registers r (hreads r hr)
  refine ⟨fun r hr => ?_, funext fun b => ?_, ?_⟩
  · simp only [Meaning.step, hcompute]
    split
    · rfl
    · next hsets =>
      rw [if_neg hsets] at hr
      exact h.registers r hr
  · simp only [Meaning.step, h.stack]
    split
    · next hcovered =>
      -- a store to the stack reads the register that it stores
      congr 1
      unfold Meaning.stored
      split
      · rfl
      next himm =>
      have hstore := Fields.isStore_of_mem_covered hcovered
      obtain ⟨bits, hbits⟩ := Fields.storeBits?_of_isStore hstore (Bool.eq_false_iff.mpr himm)
      refine h.registers _ (hreads _ ?_)
      have hcall : f.isCall = false := by
        have hall : ∀ o ∈ Opcode.stores, (o == Opcode.call) = false := by decide
        exact hall f.opcode (by simpa [Fields.isStore] using hstore)
      rw [Fields.reads, hcall, Fields.inputs_of_storeBits? hbits]
      simp
    · rfl
  · simp only [Meaning.step]
    rw [hcompute, h.rest]

theorem Agree.drop_zero (h : Agree lost m n) (hzero : f.zeroes = true) :
    Agree (fun r => if f.sets r then true else lost r) m (M.step f n) := by
  simp only [Fields.zeroes, Bool.and_eq_true] at hzero
  refine ⟨fun r hr => ?_, funext fun b => ?_, ?_⟩
  · simp only [Meaning.step]
    split at hr
    · cases hr
    · next hsets =>
      rw [if_neg hsets]
      exact h.registers r hr
  · have hstore : b ∉ f.covered := fun hb => by
      rw [(Fields.classes_of_isStore (Fields.isStore_of_mem_covered hb)).1] at hzero
      cases hzero.1
    simp only [Meaning.step, if_neg hstore, h.stack]
  · simp only [Meaning.step, hzero.1, Bool.true_or, if_true, h.rest]

theorem Agree.drop_store (h : Agree lost m n) (hstore : f.storesToStack = true)
    (hvalue : n.registers f.src = M.constant 0) (hbytes : ∀ b ∈ f.covered, n.stack b = M.zero) :
    Agree (fun r => if f.sets r then true else lost r) m (M.step f n) := by
  have hstack := Fields.isStackStore_of_storesToStack hstore
  have hisStore : f.isStore = true := by
    rw [Fields.isStackStore, Bool.and_eq_true] at hstack
    exact hstack.1
  have hsets : ∀ r, f.sets r = false := Fields.sets_of_isStore hisStore
  refine ⟨fun r hr => ?_, funext fun b => ?_, ?_⟩
  · simp only [hsets, Bool.false_eq_true, if_false] at hr
    simp only [Meaning.step, hsets, Bool.false_eq_true, if_false]
    exact h.registers r hr
  · simp only [Meaning.step]
    rw [h.stack]
    split
    · next hb =>
      have himm : f.isImmediateStore = false := by
        simp only [Fields.storesToStack, Bool.and_eq_true, Option.isSome_iff_exists] at hstore
        obtain ⟨⟨bits, hbits⟩, -⟩ := hstore
        exact Fields.isImmediateStore_of_storeBits? hbits
      rw [hbytes b hb, Meaning.stored, himm, if_neg Bool.false_ne_true, hvalue,
        M.byte_constant_zero]
    · rfl
  · simp only [Meaning.step, hstack, Bool.or_true, if_true, h.rest]

variable (hdrop : ∀ x ∈ xs, x.2 ∈ dropped → Droppable (unpacked x.1))
  (hreads : ReadsKept dropped xs) (hharmless : Harmless dropped xs)
include hdrop hreads hharmless

theorem agree_run (hm : ∀ b, m.stack b = M.zero) :
    Agree (lostAfter dropped xs) (M.run (kept dropped xs) m) (M.run xs m) := by
  induction xs using List.reverseRecOn with
  | nil => exact ⟨fun _ _ => rfl, rfl, rfl⟩
  | append_singleton xs x ih =>
    obtain ⟨hreads, hread⟩ := each_concat.mp hreads
    obtain ⟨hharmless, hharm⟩ := each_concat.mp hharmless
    have hagree := ih (fun y hy => hdrop y (List.mem_append_left _ hy)) hreads hharmless
    have hlost : lostAfter dropped (xs ++ [x]) = fun r =>
        if (unpacked x.1).sets r then dropped.contains x.2 else lostAfter dropped xs r :=
      funext fun r => lostAfter_concat r
    rw [hlost, M.run_concat]
    by_cases hx : x.2 ∈ dropped
    · rw [kept_concat_of_mem hx, List.contains_iff_mem.mpr hx]
      rcases hdrop x (by simp) hx with hzero | hstore
      · exact hagree.drop_zero hzero
      · have hisStore := Fields.isStore_of_mem_covered (Fields.offset_mem_covered hstore)
        obtain ⟨hregister, hbytes⟩ := hharm hx hisStore
        obtain ⟨hzeroRegisters, hzeroBytes⟩ := zerosAfter_sound hm xs
        exact hagree.drop_store hstore (hzeroRegisters _ hregister) fun b hb =>
          hzeroBytes b (hbytes b hb)
    · rw [kept_concat_of_not_mem hx, M.run_concat]
      have hcontains : dropped.contains x.2 = false := by simpa using hx
      rw [hcontains]
      exact hagree.step (hread hx)

theorem keepsStack_of_harmless : KeepsStack dropped xs := by
  intro V B W M m hm n
  exact (agree_run (fun x hx => hdrop x (List.mem_of_mem_take hx)) (hreads.take n)
    (hharmless.take n) hm).stack

end

/-! ## A machine that tells

On this machine a value only says whether it may be other than zero, and a byte which
byte of such a value it is. -/

/-- Values that may be other than zero, and where their bytes come from. -/
def marking : Meaning Bool (Option Int) Unit where
  constant n := n != 0
  byte v k := if v then some k else none
  zero := none
  byte_constant_zero _ := rfl
  compute _ _ _ _ := (fun _ => true, ())
  compute_congr _ _ _ _ _ _ := rfl

/-- Every register may be other than zero, and the stack is zero. -/
def unknown : Machine Bool (Option Int) Unit := ⟨fun _ => true, fun _ => none, ()⟩

theorem marking_registers (xs : List (Word × Int)) (r : Int) :
    (marking.run xs unknown).registers r = !(zerosAfter xs).registers r := by
  induction xs using List.reverseRecOn with
  | nil => rfl
  | append_singleton xs x ih =>
    rw [marking.run_concat, zerosAfter_concat]
    simp only [Meaning.step, Zeros.step]
    split
    · simp only [Fields.zeroes, marking]
      cases (unpacked x.1).isMoveImmediate <;> simp [bne]
    · exact ih

theorem marking_stack (xs : List (Word × Int)) (b : Int) :
    (marking.run xs unknown).stack b = none ∧ (zerosAfter xs).bytes b = true
      ∨ ∃ x ∈ xs, (unpacked x.1).isStackStore = true
        ∧ (marking.run xs unknown).stack b = some (b - (unpacked x.1).offset) := by
  induction xs using List.reverseRecOn with
  | nil => exact .inl ⟨rfl, rfl⟩
  | append_singleton xs x ih =>
    rw [marking.run_concat, zerosAfter_concat]
    simp only [Meaning.step, Zeros.step]
    by_cases hcovered : b ∈ (unpacked x.1).covered
    · rw [if_pos hcovered, if_pos hcovered]
      have hvalue : marking.stored (unpacked x.1) (marking.run xs unknown) =
          !(zerosAfter xs).stores (unpacked x.1) := by
        unfold Meaning.stored Zeros.stores
        split
        · rfl
        · exact marking_registers xs _
      rw [hvalue]
      cases hstores : (zerosAfter xs).stores (unpacked x.1) with
      | true => exact .inl ⟨rfl, rfl⟩
      | false =>
        exact .inr ⟨x, by simp, Fields.isStackStore_of_mem_covered hcovered, rfl⟩
    · rw [if_neg hcovered, if_neg hcovered]
      rcases ih with hnone | ⟨y, hy, hstore, hstack⟩
      · exact .inl hnone
      · exact .inr ⟨y, List.mem_append_left _ hy, hstore, hstack⟩

/-- Stores to the stack that were left out, each at an offset of its own, had to be
    harmless. -/
theorem harmless_of_keepsStack {dropped : List Int}
    (hfresh : Each (fun before y => y.2 ∈ dropped → (unpacked y.1).isStore = true →
      (unpacked y.1).storesToStack = true ∧ ∀ x ∈ before, (unpacked x.1).isStackStore = true →
        (unpacked x.1).offset ≠ (unpacked y.1).offset) xs) (h : KeepsStack dropped xs) :
    Harmless dropped xs := by
  intro n hn hy hstore
  obtain ⟨hstack, hapart⟩ := hfresh n hn hy hstore
  have hsplit : xs.take (n + 1) = xs.take n ++ [xs.get ⟨n, hn⟩] := by
    rw [List.take_succ_eq_append_getElem hn]
    rfl
  generalize xs.get ⟨n, hn⟩ = y at hy hstore hstack hapart hsplit ⊢
  generalize hbefore : xs.take n = before at hapart hsplit ⊢
  -- the store changes nothing
  have hsame : (marking.run before unknown).stack = (marking.run (before ++ [y]) unknown).stack := by
    have hupto := h _ _ _ marking unknown (fun _ => rfl) n
    have hafter := h _ _ _ marking unknown (fun _ => rfl) (n + 1)
    rw [hbefore] at hupto
    rw [hsplit, kept_concat_of_mem hy, hupto] at hafter
    exact hafter
  have hbyte : ∀ b ∈ (unpacked y.1).covered, (marking.run before unknown).stack b =
      if (zerosAfter before).registers (unpacked y.1).src then none
      else some (b - (unpacked y.1).offset) := by
    intro b hb
    have himm : (unpacked y.1).isImmediateStore = false := by
      simp only [Fields.storesToStack, Bool.and_eq_true, Option.isSome_iff_exists] at hstack
      obtain ⟨⟨bits, hbits⟩, -⟩ := hstack
      exact Fields.isImmediateStore_of_storeBits? hbits
    rw [congrFun hsame b, marking.run_concat]
    simp only [Meaning.step, if_pos hb, Meaning.stored, himm, Bool.false_eq_true, if_false,
      marking_registers]
    cases (zerosAfter before).registers (unpacked y.1).src <;> rfl
  have hregister : (zerosAfter before).registers (unpacked y.1).src = true := by
    by_contra hother
    have hoffset := Fields.offset_mem_covered hstack
    have hmarked := hbyte _ hoffset
    rw [if_neg hother] at hmarked
    rcases marking_stack before (unpacked y.1).offset with ⟨hnone, -⟩ | ⟨x, hx, hstore, hfound⟩
    · rw [hnone] at hmarked
      cases hmarked
    · -- such a byte comes from a store at the same offset
      rw [hfound, Option.some.injEq] at hmarked
      exact hapart x hx hstore (by omega)
  refine ⟨hregister, fun b hb => ?_⟩
  have hzero := hbyte b hb
  rw [if_pos hregister] at hzero
  rcases marking_stack before b with ⟨-, hsure⟩ | ⟨x, -, -, hfound⟩
  · exact hsure
  · rw [hfound] at hzero
    cases hzero

end Stack
end BpfLanes
