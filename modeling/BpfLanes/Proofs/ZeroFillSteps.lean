import BpfLanes.Proofs.NarrowAccesses
import BpfLanes.Proofs.RecogniserRuns

/-! # Steps of the recogniser of zero fills

What reading one instruction does to the recogniser of zero fills, phase by phase
(`react`), and the one instruction that it cannot read: a store of an immediate,
whose second input it asks for.
-/

namespace BpfLanes

namespace Fields

/-- A setting to zero. -/
def zeroes (f : Fields) : Bool := f.isMoveImmediate && f.immediate == 0

theorem zeroes_of_isStore {f : Fields} (h : f.isStore = true) : f.zeroes = false := by
  rw [zeroes, (classes_of_isStore h).1, Bool.false_and]

/-- A store of a register to the stack. -/
def storesToStack (f : Fields) : Bool := f.storeBits?.isSome && f.dst == Opcode.stackRegister

end Fields

namespace Peephole.ZeroFill

open Word (Proper unpacked)

variable {s t : ZeroFill} {w : Word} {id : Int} {f : Fields}

/-! ## Tests -/

/-- A store of the register that holds zero to a stack slot not touched before. -/
def zeroStore (s : ZeroFill) (f : Fields) : Except Fault Bool :=
  if f.isStore && !s.accessed.contains f.offset then
    if f.isImmediateStore then
      if some f.dst == s.register then .error .outOfRange else .ok false
    else .ok (some f.src == s.register && f.dst == Opcode.stackRegister)
  else .ok false

/-- An access to the stack: a store to it, or a load into its register. -/
def stackAccess (f : Fields) : Except Fault Bool :=
  if f.isLoad && f.output? == some Opcode.stackRegister then .ok true
  else if f.isImmediateStore then .error .outOfRange
  else .ok f.storesToStack

theorem stackAccess_of_zeroes (h : f.zeroes = true) : stackAccess f = .ok false := by
  have hstore : f.isStore = false :=
    Bool.eq_false_iff.mpr fun hstore => by simp [Fields.zeroes_of_isStore hstore] at h
  have hload : f.isLoad = false :=
    Bool.eq_false_iff.mpr fun hload => by simp [Fields.zeroes, Fields.classes_of_isLoad hload] at h
  have hbits : f.storeBits? = none := Fields.storeBits?_of_not_isStore hstore
  simp [stackAccess, Fields.storesToStack, Fields.isImmediateStore, hload, hstore, hbits]

attribute [local simp] fields

section
variable (hs : s.notes.fields = .ok f)
include hs

theorem outcome_isZeroing : outcome isZeroing s = .ok (f.zeroes, s) := by
  simp [isZeroing, Fields.zeroes, hs]

theorem outcome_isZeroStore :
    outcome isZeroStore s = (s.zeroStore f >>= fun b => .ok (b, s)) := by
  unfold isZeroStore zeroStore
  simp only [fields, hs, outcome_bind, outcome_lift, ok_bind, outcome_get, outcome_ite, outcome_pure]
  cases hstore : f.isStore && !s.accessed.contains f.offset with
  | false => rfl
  | true =>
    have hst : f.isStore = true := (Bool.and_eq_true_iff.mp hstore).1
    cases himm : f.isImmediateStore with
    | true =>
      rw [Fields.inputs_of_isImmediateStore himm]
      simp only [Position.get_first, Position.get_second_singleton, ok_bind, error_bind, if_true]
      split <;> rfl
    | false =>
      obtain ⟨bits, hbits⟩ := Fields.storeBits?_of_isStore hst himm
      rw [Fields.inputs_of_storeBits? hbits]
      simp only [Position.get_first, Position.get_second, ok_bind, if_true, Bool.false_eq_true,
        if_false]
      cases hreg : some f.src == s.register <;> rfl

theorem outcome_overwrites :
    outcome overwrites s = .ok (f.output?.isSome && f.output? == s.register, s) := by
  simp [overwrites, hs]

theorem outcome_touchesStack :
    outcome touchesStack s = (stackAccess f >>= fun b => .ok (b, s)) := by
  unfold touchesStack stackAccess
  simp only [fields, hs, outcome_bind, outcome_lift, ok_bind, outcome_get, outcome_ite, outcome_pure]
  cases hload : f.isLoad && f.output? == some Opcode.stackRegister with
  | true => rfl
  | false =>
    cases himm : f.isImmediateStore with
    | true =>
      have hst : f.isStore = true := (Bool.and_eq_true_iff.mp himm).1
      rw [hst, Fields.inputs_of_isImmediateStore himm]
      rfl
    | false =>
      cases hst : f.isStore with
      | true =>
        obtain ⟨bits, hbits⟩ := Fields.storeBits?_of_isStore hst himm
        rw [Fields.inputs_of_storeBits? hbits]
        simp [Position.get_second, Fields.storesToStack, hbits]
      | false =>
        simp [Fields.storesToStack, Fields.storeBits?_of_not_isStore hst]

end

/-! ## Actions -/

/-- The offset of an access is remembered. -/
def mark (s : ZeroFill) (f : Fields) : ZeroFill :=
  { s with accessed := if s.accessed.contains f.offset then s.accessed else s.accessed ++ [f.offset] }

/-- The instruction is to be dropped. -/
def discard (s : ZeroFill) (id : Int) : ZeroFill :=
  { s with notes := s.notes.keep (.nop id) }

theorem outcome_markAccess (hs : s.notes.fields = .ok f) :
    outcome markAccess s = .ok ((), s.mark f) := by
  simp [markAccess, mark, hs]

theorem outcome_keep (hs : s.notes.now = .ok (w, id)) (hg : s.notes.groups ≠ []) :
    outcome keep s = .ok ((), s.discard id) := by
  unfold keep
  simp only [outcome_bind, outcome_get, ok_bind, outcome_lift, hs, Notes.put_eq hg, outcome_set]
  rfl

theorem outcome_beginFill (hs : s.notes.fields = .ok f) (hnow : s.notes.now = .ok (w, id))
    (hg : s.notes.groups ≠ []) :
    outcome beginFill s = .ok ((), { s with register := f.output? }.discard id) := by
  simpa [beginFill, hs] using outcome_keep (s := { s with register := f.output? }) hnow hg

/-! ## One instruction -/

/-- The next instruction is looked at. -/
def look (s : ZeroFill) (w : Word) (id : Int) : ZeroFill :=
  { s with notes := s.notes.look w id }

/-- Forgets the register that held zero and gives up its group. -/
def abandon (s : ZeroFill) : ZeroFill :=
  { s with phase := .idle, register := none, notes := s.notes.gather [] }

/-- A setting to zero begins a group. -/
def begin (s : ZeroFill) (id : Int) (f : Fields) : ZeroFill :=
  { s with phase := .zeroed, register := f.output?, notes := s.notes.keep (.nop id) }

/-- A store is to be dropped, and its offset is remembered. -/
def take (s : ZeroFill) (id : Int) (f : Fields) : ZeroFill :=
  ({ s with phase := .storing, notes := s.notes.keep (.nop id) } : ZeroFill).mark f

/-- What reading an instruction does, phase by phase. -/
def react (s : ZeroFill) (id : Int) (f : Fields) : Except Fault ZeroFill :=
  match s.phase with
  | .idle =>
    if f.zeroes then .ok (s.begin id f)
    else stackAccess f >>= fun touched => .ok (if touched then s.mark f else s)
  | .zeroed => s.zeroStore f >>= fun stores =>
    if stores then .ok (s.take id f)
    else if (f.output?.isSome && f.output? == s.register) && !f.zeroes then .ok s.abandon
    else stackAccess f >>= fun touched =>
      if touched then .ok (s.mark f).abandon
      else if f.zeroes then
        .ok (begin { s with notes := s.notes.gather [] } id f)
      else .ok s
  | .storing => s.zeroStore f >>= fun stores =>
    if stores then .ok (s.take id f)
    else if f.zeroes then
      .ok (begin { s with notes := s.notes.finish s.notes.pending [] } id f)
    else
      .ok (mark { s with
        phase := .idle, register := none, notes := s.notes.finish s.notes.pending [] } f)

/-- The rules of the present phase, in their order. -/
abbrev applyRules : Step Unit := Rule.step phase (fun p s => { s with phase := p }) rules

section
variable (hf : s.notes.fields = .ok f) (hnow : s.notes.now = .ok (w, id))
  (hg : s.notes.groups ≠ [])
include hf hnow hg

/-! The rules that start in a phase, worked out test by test. -/

attribute [local simp] rules dropGroup openGroup forgetRegister

theorem leadsTo_step_idle (hp : s.phase = .idle) :
    LeadsTo applyRules s (s.react id f) := by
  have hbegin := outcome_beginFill (s := { s with phase := .zeroed }) hf hnow hg
  have hmark := outcome_markAccess (s := { s with phase := .idle }) hf
  have hsame : ({ s with phase := .idle } : ZeroFill) = s := by rw [← hp]
  rw [Rule.leadsTo_step hp, react, hp]
  cases hz : f.zeroes with
  | true =>
    simp [outcome_isZeroing hf, hz, hbegin]
    rfl
  | false =>
    simp only [hsame] at hmark
    cases ht : stackAccess f with
    | error e => simp [outcome_isZeroing hf, outcome_touchesStack hf, hz, ht]
    | ok touched =>
      cases touched <;>
        simp [outcome_isZeroing hf, outcome_touchesStack hf, hz, ht, hsame, hmark]

theorem leadsTo_step_zeroed (hp : s.phase = .zeroed) :
    LeadsTo applyRules s (s.react id f) := by
  have hkeep := outcome_keep (s := { s with phase := .storing }) hnow hg
  have hstored := outcome_markAccess (s := discard { s with phase := .storing } id) hf
  have hmark := outcome_markAccess (s := { s with phase := .idle }) hf
  have hbegin := outcome_beginFill
    (s := { s with notes := s.notes.gather [], phase := .zeroed }) hf hnow (by simp)
  rw [Rule.leadsTo_step hp, react, hp]
  cases hz : s.zeroStore f with
  | error e => simp [outcome_isZeroStore hf, hz]
  | ok stores =>
    cases stores with
    | true =>
      simp [outcome_isZeroStore hf, hz, hkeep, hstored]
      rfl
    | false =>
      cases hzero : f.zeroes with
      | true =>
        cases hover : f.output?.isSome && f.output? == s.register <;>
        · simp [outcome_isZeroStore hf, outcome_overwrites hf, outcome_isZeroing hf,
            outcome_touchesStack hf, stackAccess_of_zeroes hzero, hz, hover, hzero, hbegin]
          rfl
      | false =>
        cases hover : f.output?.isSome && f.output? == s.register with
        | true =>
          simp [outcome_isZeroStore hf, outcome_overwrites hf, outcome_isZeroing hf, hz,
            hover, hzero]
          rfl
        | false =>
          have htouches := outcome_touchesStack hf
          rcases ht : stackAccess f with e | (_ | _)
          · simp [outcome_isZeroStore hf, outcome_overwrites hf, htouches, hz, hover, ht]
          · simp [outcome_isZeroStore hf, outcome_overwrites hf, outcome_isZeroing hf, htouches,
              hz, hover, hzero, ht]
          · simp [outcome_isZeroStore hf, outcome_overwrites hf, htouches, hz, hover, ht, hmark]
            rfl

theorem leadsTo_step_storing (hp : s.phase = .storing) :
    LeadsTo applyRules s (s.react id f) := by
  have hkeep := outcome_keep (s := { s with phase := .storing }) hnow hg
  have hstored := outcome_markAccess (s := discard { s with phase := .storing } id) hf
  have hmark := outcome_markAccess
    (s := { s with phase := .idle, register := none, notes := s.notes.finish s.notes.pending [] })
    hf
  have hbegin := outcome_beginFill
    (s := { s with notes := s.notes.finish s.notes.pending [], phase := .zeroed }) hf hnow
  rw [Rule.leadsTo_step hp, react, hp]
  cases hz : s.zeroStore f with
  | error e => simp [outcome_isZeroStore hf, hz]
  | ok stores =>
    cases stores with
    | true =>
      simp [outcome_isZeroStore hf, hz, hkeep, hstored]
      rfl
    | false =>
      cases hzero : f.zeroes with
      | true =>
        simp [outcome_isZeroStore hf, outcome_isZeroing hf, hz, hzero,
          Notes.addGroup_eq hg, hbegin]
        rfl
      | false =>
        simp [outcome_isZeroStore hf, outcome_isZeroing hf, hz, hzero, Notes.addGroup_eq hg, hmark]

theorem leadsTo_step :
    LeadsTo applyRules s (s.react id f) := by
  cases hp : s.phase with
  | idle => exact leadsTo_step_idle hf hnow hg hp
  | zeroed => exact leadsTo_step_zeroed hf hnow hg hp
  | storing => exact leadsTo_step_storing hf hnow hg hp

end

theorem leadsTo_read (hw : Proper w) (hg : s.notes.groups ≠ []) :
    LeadsTo (read w id) s ((s.look w id).react id (unpacked w)) :=
  leadsTo_step (s := s.look w id) (Notes.look_fields hw) rfl hg

/-! ## Everything that a step can do -/

/-- Everything that reading an instruction can do. -/
inductive Move (s : ZeroFill) (id : Int) (f : Fields) : ZeroFill → Prop
  | rest (hp : s.phase ≠ .storing) (hzero : f.zeroes = false) (htouch : stackAccess f = .ok false)
      (hkept : s.phase = .zeroed → f.output? = none ∨ f.output? ≠ s.register) : Move s id f s
  | touch (hp : s.phase = .idle) (htouch : stackAccess f = .ok true) : Move s id f (s.mark f)
  | zero (hp : s.phase = .idle) (hzero : f.zeroes = true) : Move s id f (s.begin id f)
  | again (hp : s.phase = .zeroed) (hzero : f.zeroes = true) :
      Move s id f (begin { s with notes := s.notes.gather [] } id f)
  | next (hp : s.phase = .storing) (hzero : f.zeroes = true) :
      Move s id f (begin { s with notes := s.notes.finish s.notes.pending [] } id f)
  | store (hp : s.phase ≠ .idle) (hstore : s.zeroStore f = .ok true) : Move s id f (s.take id f)
  | lose (hp : s.phase = .zeroed) (hzero : f.zeroes = false)
      (hlost : f.output?.isSome = true ∧ f.output? = s.register) : Move s id f s.abandon
  | spoil (hp : s.phase = .zeroed) (hstore : s.zeroStore f = .ok false)
      (htouch : stackAccess f = .ok true) : Move s id f (s.mark f).abandon
  | close (hp : s.phase = .storing) (hzero : f.zeroes = false)
      (hstore : s.zeroStore f = .ok false) :
      Move s id f (mark { s with
        phase := .idle, register := none, notes := s.notes.finish s.notes.pending [] } f)

theorem move_of_react (h : s.react id f = .ok t) : Move s id f t := by
  unfold react at h
  cases hp : s.phase with
  | idle =>
    simp only [hp] at h
    split at h
    · next hzero => exact Except.ok.inj h ▸ .zero hp hzero
    next hzero =>
    obtain ⟨touched, htouch, h⟩ := bind_eq_ok.mp h
    cases h
    cases touched with
    | true => exact .touch hp htouch
    | false =>
      refine .rest (by rw [hp]; decide) (Bool.eq_false_iff.mpr hzero) htouch ?_
      rw [hp]
      exact nofun
  | zeroed =>
    simp only [hp] at h
    obtain ⟨stores, hstore, h⟩ := bind_eq_ok.mp h
    split at h
    · next htrue =>
      subst htrue
      exact Except.ok.inj h ▸ .store (by rw [hp]; decide) hstore
    · next hfalse =>
      obtain rfl : stores = false := Bool.eq_false_iff.mpr hfalse
      split at h
      · next hlost =>
        simp only [Bool.and_eq_true, beq_iff_eq, Bool.not_eq_eq_eq_not, Bool.not_true] at hlost
        exact Except.ok.inj h ▸ .lose hp hlost.2 hlost.1
      · next hkept =>
        obtain ⟨touched, htouch, h⟩ := bind_eq_ok.mp h
        split at h
        · next htrue =>
          subst htrue
          exact Except.ok.inj h ▸ .spoil hp hstore htouch
        · next hfalse =>
          obtain rfl : touched = false := Bool.eq_false_iff.mpr hfalse
          split at h
          · next hzero => exact Except.ok.inj h ▸ .again hp hzero
          next hzero =>
          have hzero : f.zeroes = false := Bool.eq_false_iff.mpr hzero
          refine Except.ok.inj h ▸ .rest (by rw [hp]; decide) hzero htouch fun _ => ?_
          cases hout : f.output? with
          | none => exact .inl rfl
          | some o =>
            rw [hout, hzero] at hkept
            exact .inr (by simpa using hkept)
  | storing =>
    simp only [hp] at h
    obtain ⟨stores, hstore, h⟩ := bind_eq_ok.mp h
    split at h
    · next htrue =>
      subst htrue
      exact Except.ok.inj h ▸ .store (by rw [hp]; decide) hstore
    · next hfalse =>
      obtain rfl : stores = false := Bool.eq_false_iff.mpr hfalse
      split at h
      · next hzero => exact Except.ok.inj h ▸ .next hp hzero
      · next hzero => exact Except.ok.inj h ▸ .close hp (Bool.eq_false_iff.mpr hzero) hstore

theorem runs_read (hg : s.notes.groups ≠ []) (hw : Proper w) (h : Runs (read w id) s () t) :
    Move (s.look w id) id (unpacked w) t :=
  move_of_react ((leadsTo_read hw hg).eq_ok h)

end Peephole.ZeroFill
end BpfLanes
