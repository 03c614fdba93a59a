import BpfLanes.Fault

/-! # Runs of steps

`Runs m s a t` says that the step `m` takes the state `s` to `t` and gives `a`.
One equivalence for each way of putting steps together takes a run apart.

A step may also end in a fault and leave a changed state behind, which a step
that recovers from the fault goes on with. `Keeps I m` says that `m` never leaves
the states that satisfy `I`, however it ends.
-/

namespace BpfLanes

variable {σ α β : Type} {m : EStateM Fault σ α} {f : α → EStateM Fault σ β} {x : Except Fault α}
  {xs : List α} {s t u : σ} {a : α} {b : β} {e : Fault}

/-- The step `m` takes the state `s` to `t` and gives `a`. -/
def Runs (m : EStateM Fault σ α) (s : σ) (a : α) (t : σ) : Prop :=
  m.run s = .ok a t

/-- The step `m` fails in the state `s` with the fault `e` and leaves `t` behind. -/
def Fails (m : EStateM Fault σ α) (s : σ) (e : Fault) (t : σ) : Prop :=
  m.run s = .error e t

/-! ## Running -/

/-- The step does not end in a fault. -/
def finishes (m : EStateM Fault σ α) (s : σ) : Bool :=
  match m.run s with
  | .ok _ _ => true
  | .error _ _ => false

/-- The state that a step leaves behind. -/
def stateAfter (m : EStateM Fault σ α) (s : σ) : σ :=
  match m.run s with
  | .ok _ t => t
  | .error _ t => t

/-- What a step gives, if it finishes. -/
def resultAfter [Inhabited α] (m : EStateM Fault σ α) (s : σ) : α :=
  match m.run s with
  | .ok a _ => a
  | .error _ _ => default

theorem runs_after [Inhabited α] (h : finishes m s = true) :
    Runs m s (resultAfter m s) (stateAfter m s) := by
  unfold finishes at h
  unfold resultAfter stateAfter Runs
  cases hr : m.run s with
  | ok a t => rfl
  | error e t =>
    rw [hr] at h
    cases h

/-- What two programs in a row come to, where it can be computed. -/
theorem exists_chain {m n : EStateM Fault σ Unit} {P : σ → σ → Prop} (hm : finishes m s = true)
    (hn : finishes n (stateAfter m s) = true)
    (h : P (stateAfter m s) (stateAfter n (stateAfter m s))) :
    ∃ t u, Runs m s () t ∧ Runs n t () u ∧ P t u :=
  ⟨_, _, runs_after hm, runs_after hn, h⟩

theorem fails_of_not_finishes (h : finishes m s = false) : ∃ e t, Fails m s e t := by
  unfold finishes at h
  cases hr : m.run s with
  | ok a t =>
    rw [hr] at h
    cases h
  | error e t => exact ⟨e, t, hr⟩

theorem eq_ok_of_toOption (h : x.toOption = some a) : x = .ok a := by
  cases x with
  | error e => cases h
  | ok b => exact congrArg Except.ok (Option.some.inj h)

theorem finishes_of_runs (h : Runs m s a t) : finishes m s = true := by
  unfold finishes
  rw [h]

theorem stateAfter_of_runs (h : Runs m s a t) : stateAfter m s = t := by
  unfold stateAfter
  rw [h]

theorem stateAfter_bind (h : Runs m s a t) : stateAfter (m >>= f) s = stateAfter (f a) t := by
  unfold stateAfter
  rw [EStateM.run_bind, h]

/-! ## Taking runs apart -/

theorem Runs.unique {b : α} (h₁ : Runs m s a t) (h₂ : Runs m s b u) : a = b ∧ t = u := by
  have heq : EStateM.Result.ok a t = EStateM.Result.ok b u := h₁.symm.trans h₂
  cases heq
  exact ⟨rfl, rfl⟩

theorem Runs.not_fails (h : Runs m s a t) : ¬ Fails m s e u := by
  intro hfail
  have heq : EStateM.Result.ok a t = EStateM.Result.error e u := h.symm.trans hfail
  cases heq

@[simp] theorem runs_pure {b : α} : Runs (pure a) s b t ↔ b = a ∧ t = s := by
  unfold Runs
  rw [EStateM.run_pure, EStateM.Result.ok.injEq]
  exact and_congr eq_comm eq_comm

@[simp] theorem runs_bind : Runs (m >>= f) s b u ↔ ∃ a t, Runs m s a t ∧ Runs (f a) t b u := by
  constructor
  · intro h
    unfold Runs at h
    rw [EStateM.run_bind] at h
    split at h
    · next a t hm => exact ⟨a, t, hm, h⟩
    · cases h
  · rintro ⟨a, t, hm, hf⟩
    unfold Runs
    rwa [EStateM.run_bind, hm]

theorem Runs.run_bind (h : Runs m s a t) (f : α → EStateM Fault σ β) :
    (m >>= f).run s = (f a).run t := by
  rw [EStateM.run_bind, h]

@[simp] theorem runs_get {a : σ} : Runs (get : EStateM Fault σ σ) s a t ↔ a = s ∧ t = s := by
  unfold Runs
  rw [EStateM.run_get, EStateM.Result.ok.injEq]
  exact and_congr eq_comm eq_comm

@[simp] theorem runs_set {a : PUnit} : Runs (set u : EStateM Fault σ PUnit) s a t ↔ t = u := by
  unfold Runs
  rw [EStateM.run_set, EStateM.Result.ok.injEq]
  exact ⟨fun h => h.2.symm, fun h => ⟨rfl, h.symm⟩⟩

@[simp] theorem runs_modify {f : σ → σ} {a : PUnit} :
    Runs (modify f : EStateM Fault σ PUnit) s a t ↔ t = f s := by
  unfold Runs
  rw [EStateM.run_modify, EStateM.Result.ok.injEq]
  exact ⟨fun h => h.2.symm, fun h => ⟨rfl, h.symm⟩⟩

@[simp] theorem runs_throw : ¬ Runs (throw e : EStateM Fault σ α) s a t := by
  intro h
  cases h

@[simp] theorem runs_lift : Runs (liftM x : EStateM Fault σ α) s a t ↔ x = .ok a ∧ t = s := by
  cases x with
  | ok b =>
    show Runs (pure b) s a t ↔ _
    rw [runs_pure, Except.ok.injEq, eq_comm (a := a)]
  | error e =>
    constructor
    · intro h
      cases h
    · rintro ⟨h, _⟩
      cases h

@[simp high] theorem runs_pure_bind : Runs (pure a >>= f) s b u ↔ Runs (f a) s b u := by
  rw [pure_bind]

@[simp high] theorem runs_get_bind {f : σ → EStateM Fault σ β} :
    Runs (get >>= f) s b u ↔ Runs (f s) s b u :=
  Iff.rfl

@[simp high] theorem runs_set_bind {v : σ} {f : PUnit → EStateM Fault σ β} :
    Runs (set v >>= f) s b u ↔ Runs (f ⟨⟩) v b u :=
  Iff.rfl

@[simp high] theorem runs_modify_bind {g : σ → σ} {f : PUnit → EStateM Fault σ β} :
    Runs (modify g >>= f) s b u ↔ Runs (f ⟨⟩) (g s) b u :=
  Iff.rfl

@[simp high] theorem runs_lift_bind :
    Runs (liftM x >>= f) s b u ↔ ∃ a, x = .ok a ∧ Runs (f a) s b u := by
  rw [runs_bind]
  constructor
  · rintro ⟨a, t, h, hf⟩
    obtain ⟨hx, rfl⟩ := runs_lift.mp h
    exact ⟨a, hx, hf⟩
  · rintro ⟨a, hx, hf⟩
    exact ⟨a, s, runs_lift.mpr ⟨hx, rfl⟩, hf⟩

theorem fails_bind :
    Fails (m >>= f) s e u ↔ Fails m s e u ∨ ∃ a t, Runs m s a t ∧ Fails (f a) t e u := by
  constructor
  · intro h
    unfold Fails at h
    rw [EStateM.run_bind] at h
    split at h
    · next a t hm => exact .inr ⟨a, t, hm, h⟩
    · next e' t hm =>
      cases h
      exact .inl hm
  · intro h
    unfold Fails
    rw [EStateM.run_bind]
    rcases h with hm | ⟨a, t, hm, hf⟩
    · rw [show m.run s = .error e u from hm]
    · rwa [show m.run s = .ok a t from hm]

@[simp high] theorem fails_get_bind {f : σ → EStateM Fault σ β} :
    Fails (get >>= f) s e u ↔ Fails (f s) s e u :=
  Iff.rfl

theorem runs_tryCatch {h : Fault → EStateM Fault σ α} :
    Runs (tryCatch m h) s a t ↔
      Runs m s a t ∨ ∃ e u, Fails m s e u ∧ Runs (h e) u a t := by
  have hrun : (tryCatch m h).run s = match m.run s with
      | .ok a t => .ok a t
      | .error e t => (h e).run t := by
    show EStateM.tryCatch m h s = _
    unfold EStateM.tryCatch EStateM.run
    cases m s <;> rfl
  unfold Runs Fails
  rw [hrun]
  cases m.run s with
  | ok b u => simp
  | error e u =>
    constructor
    · intro hr
      exact .inr ⟨e, u, rfl, hr⟩
    · rintro (hr | ⟨e', u', he, hr⟩)
      · cases hr
      · cases he
        exact hr

theorem bind_eq_ok {f : α → Except Fault β} : x >>= f = .ok b ↔ ∃ a, x = .ok a ∧ f a = .ok b := by
  cases x with
  | error e =>
    constructor
    · intro h
      cases h
    · rintro ⟨a, h, _⟩
      cases h
  | ok a =>
    constructor
    · intro h
      exact ⟨a, rfl, h⟩
    · rintro ⟨a', h, hf⟩
      cases h
      exact hf

/-! ## Loops -/

theorem runs_forM_induct {f : α → EStateM Fault σ PUnit} (P : Nat → σ → Prop) {u : PUnit}
    (hr : Runs (xs.forM f) s u t) (h0 : P 0 s)
    (hstep : ∀ k x s t, xs[k]? = some x → P k s → Runs (f x) s ⟨⟩ t → P (k + 1) t) :
    P xs.length t := by
  induction xs generalizing s P with
  | nil =>
    obtain ⟨_, rfl⟩ := runs_pure.mp hr
    exact h0
  | cons x xs ih =>
    obtain ⟨_, s', hx, hxs⟩ := runs_bind.mp hr
    refine ih (fun k => P (k + 1)) hxs (hstep 0 x s s' rfl h0 hx) ?_
    intro k y s t hy
    exact hstep (k + 1) y s t hy

theorem runs_foldlM_induct {f : β → α → EStateM Fault σ β} (P : List α → β → σ → Prop) {r : β}
    (hr : Runs (xs.foldlM f b) s r t) (h0 : P [] b s)
    (hstep : ∀ done x rest b s r t, xs = done ++ x :: rest → P done b s → Runs (f b x) s r t →
      P (done ++ [x]) r t) : P xs r t := by
  suffices hrest : ∀ done rest b s, xs = done ++ rest → P done b s →
      Runs (rest.foldlM f b) s r t → P xs r t by
    exact hrest [] xs b s rfl h0 hr
  intro done rest
  induction rest generalizing done with
  | nil =>
    intro b s hxs hdone hr
    obtain ⟨rfl, rfl⟩ := runs_pure.mp hr
    rwa [hxs, List.append_nil]
  | cons x rest ih =>
    intro b s hxs hdone hr
    obtain ⟨b', s', hx, hrest⟩ := runs_bind.mp hr
    apply ih (done ++ [x]) b' s' _ (hstep done x rest b s b' s' hxs hdone hx) hrest
    rw [hxs, List.append_assoc]
    rfl

theorem runs_foldlM_snoc {f : β → α → EStateM Fault σ β} {x : α} {r r' : β}
    (h : Runs (xs.foldlM f b) s r t) (hx : Runs (f r x) t r' u) :
    Runs ((xs ++ [x]).foldlM f b) s r' u := by
  rw [List.foldlM_append, runs_bind]
  exact ⟨r, t, h, runs_bind.mpr ⟨r', u, hx, rfl⟩⟩

/-! ## Loops that reach their end -/

theorem forM_runs {f : α → EStateM Fault σ PUnit} (P : Nat → σ → Prop) {l : List α} (h0 : P 0 s)
    (hstep : ∀ k x s, l[k]? = some x → P k s → ∃ t, Runs (f x) s ⟨⟩ t ∧ P (k + 1) t) :
    ∃ t, Runs (l.forM f) s ⟨⟩ t ∧ P l.length t := by
  induction l generalizing s P with
  | nil => exact ⟨s, runs_pure.mpr ⟨rfl, rfl⟩, h0⟩
  | cons x xs ih =>
    obtain ⟨s', hx, h1⟩ := hstep 0 x s rfl h0
    obtain ⟨t, hxs, ht⟩ := ih (fun k => P (k + 1)) h1 fun k y s hy => hstep (k + 1) y s hy
    exact ⟨t, runs_bind.mpr ⟨⟨⟩, s', hx, hxs⟩, ht⟩

theorem foldlM_runs {f : β → α → EStateM Fault σ β} (P : List α → β → σ → Prop) {l : List α}
    (h0 : P l b s)
    (hstep : ∀ x rest b s, P (x :: rest) b s → ∃ b' t, Runs (f b x) s b' t ∧ P rest b' t) :
    ∃ b' t, Runs (l.foldlM f b) s b' t ∧ P [] b' t := by
  induction l generalizing s b with
  | nil => exact ⟨b, s, runs_pure.mpr ⟨rfl, rfl⟩, h0⟩
  | cons x xs ih =>
    obtain ⟨b', s', hx, h1⟩ := hstep x xs b s h0
    obtain ⟨r, t, hxs, ht⟩ := ih h1
    exact ⟨r, t, runs_bind.mpr ⟨b', s', hx, hxs⟩, ht⟩

/-! ## Steps that keep a property -/

/-- A step ended in a state that satisfies `I`, whether or not it ended in a fault, and
    a result that it gave satisfies `P`. -/
def EndsIn (I : σ → Prop) (P : α → Prop) : EStateM.Result Fault σ α → Prop
  | .ok a t => P a ∧ I t
  | .error _ t => I t

/-- The step `m` never leaves the states that satisfy `I`, and what it gives there
    satisfies `P`. -/
def Gives (I : σ → Prop) (P : α → Prop) (m : EStateM Fault σ α) : Prop :=
  ∀ s, I s → EndsIn I P (m.run s)

/-- However the step `m` ends, a state that satisfies `I` is left in one that does. -/
def Keeps (I : σ → Prop) (m : EStateM Fault σ α) : Prop :=
  Gives I (fun _ => True) m

variable {I : σ → Prop} {P : α → Prop} {Q : β → Prop}

theorem EndsIn.mono {J : σ → Prop} {r : EStateM.Result Fault σ α} (h : EndsIn I P r)
    (hJ : ∀ t, I t → J t) : EndsIn J P r := by
  cases r with
  | ok a t => exact ⟨h.1, hJ t h.2⟩
  | error e t => exact hJ t h

theorem EndsIn.runs (h : EndsIn I P (m.run s)) (hr : Runs m s a t) : P a ∧ I t := by
  rwa [hr] at h

theorem EndsIn.fails (h : EndsIn I P (m.run s)) (hf : Fails m s e t) : I t := by
  rwa [hf] at h

theorem Gives.runs (h : Gives I P m) (hr : Runs m s a t) (hs : I s) : P a ∧ I t :=
  (h s hs).runs hr

theorem Keeps.runs (h : Keeps I m) (hr : Runs m s a t) (hs : I s) : I t :=
  (Gives.runs h hr hs).2

theorem Gives.fails (h : Gives I P m) (hf : Fails m s e t) (hs : I s) : I t :=
  (h s hs).fails hf

theorem Gives.stateAfter (h : Gives I P m) (hs : I s) : I (stateAfter m s) := by
  unfold BpfLanes.stateAfter
  cases hr : m.run s with
  | ok a t => exact (h.runs hr hs).2
  | error e t => exact h.fails hr hs

theorem Gives.weaken {P' : α → Prop} (h : Gives I P m) (hp : ∀ a, P a → P' a) : Gives I P' m := by
  intro s hs
  have hend := h s hs
  cases hr : m.run s with
  | ok a t =>
    rw [hr] at hend
    exact ⟨hp a hend.1, hend.2⟩
  | error e t =>
    rwa [hr] at hend

theorem gives_of_runs (hm : Keeps I m) (h : ∀ s a t, I s → Runs m s a t → P a) : Gives I P m := by
  intro s hs
  cases hr : m.run s with
  | ok a t => exact ⟨h s a t hs hr, hm.runs hr hs⟩
  | error e t =>
    show I t
    exact Gives.fails hm hr hs

theorem gives_pure (ha : P a) : Gives I P (pure a : EStateM Fault σ α) :=
  fun _ hs => ⟨ha, hs⟩

theorem gives_throw (e : Fault) : Gives I P (throw e : EStateM Fault σ α) :=
  fun _ hs => hs

theorem gives_lift (hx : ∀ a, x = .ok a → P a) : Gives I P (liftM x : EStateM Fault σ α) := by
  cases x with
  | ok a => exact gives_pure (hx a rfl)
  | error e => exact gives_throw e

theorem EndsIn.bind (hm : EndsIn I P (m.run s)) (hf : ∀ a, P a → Gives I Q (f a)) :
    EndsIn I Q ((m >>= f).run s) := by
  rw [EStateM.run_bind]
  cases h : m.run s with
  | ok a t =>
    rw [h] at hm
    exact hf a hm.1 t hm.2
  | error e t =>
    rwa [h] at hm

theorem gives_bind (hm : Gives I P m) (hf : ∀ a, P a → Gives I Q (f a)) : Gives I Q (m >>= f) :=
  fun s hs => (hm s hs).bind hf

theorem gives_get {P : σ → Prop} (hp : ∀ s, I s → P s) : Gives I P (get : EStateM Fault σ σ) :=
  fun s hs => ⟨hp s hs, hs⟩

theorem gives_foldlM {f : β → α → EStateM Fault σ β} (hf : ∀ a ∈ xs, ∀ b, Q b → Gives I Q (f b a))
    (hb : Q b) : Gives I Q (xs.foldlM f b) := by
  induction xs generalizing b with
  | nil => exact gives_pure hb
  | cons x xs ih =>
    refine gives_bind (hf x (by simp) b hb) fun b' hb' => ?_
    exact ih (fun a ha => hf a (by simp [ha])) hb'

@[simp] theorem keeps_pure (a : α) : Keeps I (pure a : EStateM Fault σ α) :=
  gives_pure trivial

@[simp] theorem keeps_throw (e : Fault) : Keeps I (throw e : EStateM Fault σ α) :=
  gives_throw e

@[simp] theorem keeps_get : Keeps I (get : EStateM Fault σ σ) :=
  gives_get fun _ _ => trivial

theorem keeps_set (hu : I u) : Keeps I (set u : EStateM Fault σ PUnit) :=
  fun _ _ => ⟨trivial, hu⟩

theorem keeps_modify {f : σ → σ} (hf : ∀ s, I s → I (f s)) :
    Keeps I (modify f : EStateM Fault σ PUnit) :=
  fun s hs => ⟨trivial, hf s hs⟩

@[simp] theorem keeps_lift (x : Except Fault α) : Keeps I (liftM x : EStateM Fault σ α) :=
  gives_lift fun _ _ => trivial

theorem keeps_bind (hm : Keeps I m) (hf : ∀ a, Keeps I (f a)) : Keeps I (m >>= f) :=
  gives_bind hm fun a _ => hf a

theorem keeps_ite {p : Prop} [Decidable p] {n : EStateM Fault σ α} (hm : Keeps I m)
    (hn : Keeps I n) : Keeps I (if p then m else n) := by
  split
  · exact hm
  · exact hn

theorem keeps_forM {f : α → EStateM Fault σ PUnit} (hf : ∀ a ∈ xs, Keeps I (f a)) :
    Keeps I (xs.forM f) := by
  induction xs with
  | nil => exact keeps_pure _
  | cons x xs ih =>
    refine keeps_bind (hf x (by simp)) fun _ => ?_
    exact ih fun a ha => hf a (by simp [ha])

theorem keeps_mapM (hf : ∀ a ∈ xs, Keeps I (f a)) : Keeps I (xs.mapM f) := by
  induction xs with
  | nil =>
    exact keeps_pure _
  | cons x xs ih =>
    rw [List.mapM_cons]
    refine keeps_bind (hf x (by simp)) fun b => ?_
    exact keeps_bind (ih fun a ha => hf a (by simp [ha])) fun bs => keeps_pure _

theorem keeps_foldlM {f : β → α → EStateM Fault σ β} (hf : ∀ a ∈ xs, ∀ b, Keeps I (f b a)) (b : β) :
    Keeps I (xs.foldlM f b) :=
  gives_foldlM (fun a ha b _ => hf a ha b) trivial

/-! ## Steps that only look -/

theorem keeps_of_same (h : ∀ s, I s → Keeps (fun t => t = s) m) : Keeps I m := by
  intro s hs
  have hend := h s hs s rfl
  cases hr : m.run s with
  | ok a t =>
    rw [hr] at hend
    exact ⟨trivial, hend.2 ▸ hs⟩
  | error e t =>
    rw [hr] at hend
    exact hend ▸ hs

/-- A step that leaves the state as it is. -/
def Looks (m : EStateM Fault σ α) : Prop :=
  ∀ s, Keeps (fun t => t = s) m

theorem Looks.eq (h : Looks m) (hr : Runs m s a t) : t = s :=
  (h s).runs hr rfl

theorem ends_look (hm : Looks m) (hs : I s) (h : ∀ a, Runs m s a s → EndsIn I Q ((f a).run s)) :
    EndsIn I Q ((m >>= f).run s) := by
  rw [EStateM.run_bind]
  cases hr : m.run s with
  | ok a t =>
    obtain rfl := hm.eq hr
    exact h a hr
  | error e t =>
    obtain rfl := Gives.fails (hm s) hr rfl
    exact hs

theorem runs_filterAuxM {f : α → EStateM Fault σ Bool} (hf : ∀ x, Looks (f x)) {acc ys : List α}
    (h : Runs (xs.filterAuxM f acc) s ys t) :
    t = s ∧ ∃ zs : List α, ys = zs.reverse ++ acc ∧ zs.Sublist xs ∧
      ∀ x ∈ xs, (x ∈ zs → Runs (f x) s true s) ∧ (x ∉ zs → Runs (f x) s false s) := by
  induction xs generalizing acc with
  | nil =>
    obtain ⟨rfl, rfl⟩ := runs_pure.mp h
    exact ⟨rfl, [], rfl, List.Sublist.refl _, by simp⟩
  | cons x xs ih =>
    obtain ⟨b, s', hx, hrest⟩ := runs_bind.mp h
    obtain rfl := (hf x).eq hx
    obtain ⟨rfl, zs, rfl, hsub, hall⟩ := ih hrest
    cases b with
    | true =>
      refine ⟨rfl, x :: zs, by simp, hsub.cons_cons x, ?_⟩
      intro y hy
      by_cases hyx : y = x
      · subst hyx
        exact ⟨fun _ => hx, fun hn => absurd List.mem_cons_self hn⟩
      · obtain ⟨hin, hout⟩ := hall y ((List.mem_cons.mp hy).resolve_left hyx)
        refine ⟨fun hm => hin ((List.mem_cons.mp hm).resolve_left hyx), fun hn => hout ?_⟩
        exact fun hm => hn (List.mem_cons_of_mem _ hm)
    | false =>
      refine ⟨rfl, zs, rfl, hsub.cons x, ?_⟩
      intro y hy
      by_cases hyx : y = x
      · subst hyx
        refine ⟨fun hm => ?_, fun _ => hx⟩
        exact (hall y (hsub.subset hm)).1 hm
      · exact hall y ((List.mem_cons.mp hy).resolve_left hyx)

theorem runs_filterM {f : α → EStateM Fault σ Bool} (hf : ∀ x, Looks (f x)) {ys : List α}
    (h : Runs (xs.filterM f) s ys t) :
    t = s ∧ ys.Sublist xs ∧
      ∀ x ∈ xs, (x ∈ ys → Runs (f x) s true s) ∧ (x ∉ ys → Runs (f x) s false s) := by
  unfold List.filterM at h
  obtain ⟨zs, s', hz, hret⟩ := runs_bind.mp h
  obtain ⟨rfl, zs', rfl, hsub, hall⟩ := runs_filterAuxM hf hz
  obtain ⟨rfl, rfl⟩ := runs_pure.mp hret
  rw [List.append_nil, List.reverse_reverse]
  exact ⟨rfl, hsub, hall⟩

end BpfLanes
