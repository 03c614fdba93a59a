import BpfLanes.Proofs.Recognisers
import Mathlib.Data.List.Induction
import Mathlib.Tactic.Tauto

/-! # Running recognisers

What a step gives and how it leaves the state, or the fault it ends in, is its
`outcome`. Outcomes of steps put together are outcomes put together, so that the
rules of a recogniser can be worked out one test after another. A recogniser is fed
instructions in a row; what holds at first and after each of them holds of it
whatever it was fed.
-/

namespace BpfLanes

variable {σ α β : Type}

/-! ## Outcomes -/

@[simp] theorem ok_bind (a : α) (f : α → Except Fault β) : (Except.ok a >>= f) = f a := rfl

@[simp] theorem error_bind (e : Fault) (f : α → Except Fault β) :
    (Except.error e >>= f) = Except.error e := rfl

@[simp] theorem pure_eq_ok (a : α) : (pure a : Except Fault α) = .ok a := rfl

@[simp] theorem throw_eq_error (e : Fault) : (throw e : Except Fault α) = .error e := rfl

variable {e : Fault}

theorem bind_eq_error {x : Except Fault α} {f : α → Except Fault β} :
    (x >>= f) = .error e ↔ x = .error e ∨ ∃ a, x = .ok a ∧ f a = .error e := by
  cases x <;> simp

/-- What a step gives and the state it leaves, or the fault it ends in. -/
def outcome (m : EStateM Fault σ α) (s : σ) : Except Fault (α × σ) :=
  match m.run s with
  | .ok a t => .ok (a, t)
  | .error e _ => .error e

variable {m : EStateM Fault σ α}

theorem runs_iff_outcome {s t : σ} {a : α} :
    Runs m s a t ↔ outcome m s = .ok (a, t) := by
  unfold Runs outcome
  cases m.run s <;> simp

theorem fails_iff_outcome {s : σ} :
    (∃ t, Fails m s e t) ↔ outcome m s = .error e := by
  unfold Fails outcome
  cases m.run s <;> simp

/-- A step leads where `r` tells, or fails with its fault. -/
def LeadsTo (m : EStateM Fault σ Unit) (s : σ) (r : Except Fault σ) : Prop :=
  outcome m s = (r >>= fun t => .ok ((), t))

variable {m : EStateM Fault σ Unit} {s t : σ} {r : Except Fault σ}

theorem LeadsTo.eq_ok (hm : LeadsTo m s r) (h : Runs m s () t) : r = .ok t := by
  rw [runs_iff_outcome, hm] at h
  cases r <;> simp_all [bind, Except.bind]

theorem LeadsTo.fails_iff (hm : LeadsTo m s r) : (∃ t, Fails m s e t) ↔ r = .error e := by
  rw [fails_iff_outcome, hm]
  cases r <;> simp [bind, Except.bind]

@[simp] theorem outcome_pure (a : α) (s : σ) :
    outcome (pure a : EStateM Fault σ α) s = .ok (a, s) := rfl

@[simp] theorem outcome_throw (e : Fault) (s : σ) :
    outcome (throw e : EStateM Fault σ α) s = .error e := rfl

@[simp] theorem outcome_bind (m : EStateM Fault σ α) (f : α → EStateM Fault σ β) (s : σ) :
    outcome (m >>= f) s = (outcome m s >>= fun x => outcome (f x.1) x.2) := by
  unfold outcome
  rw [EStateM.run_bind]
  cases m.run s <;> rfl

@[simp] theorem outcome_map (m : EStateM Fault σ α) (g : α → β) (s : σ) :
    outcome (g <$> m) s = (outcome m s >>= fun x => .ok (g x.1, x.2)) :=
  outcome_bind m (pure ∘ g) s

@[simp] theorem outcome_get (s : σ) : outcome (get : EStateM Fault σ σ) s = .ok (s, s) := rfl

@[simp] theorem outcome_set (t s : σ) :
    outcome (set t : EStateM Fault σ PUnit) s = .ok (⟨⟩, t) := rfl

@[simp] theorem outcome_modify (f : σ → σ) (s : σ) :
    outcome (modify f : EStateM Fault σ PUnit) s = .ok (⟨⟩, f s) := rfl

@[simp] theorem outcome_lift (x : Except Fault α) (s : σ) :
    outcome (liftM x : EStateM Fault σ α) s = (x >>= fun a => .ok (a, s)) := by
  cases x <;> rfl

@[simp] theorem outcome_ite {p : Prop} [Decidable p] (m n : EStateM Fault σ α) (s : σ) :
    outcome (if p then m else n) s = if p then outcome m s else outcome n s := by
  split <;> rfl

@[simp] theorem ite_ok_true (b : Bool) (s : σ) :
    (if b = true then (Except.ok (true, s) : Except Fault (Bool × σ)) else .ok (false, s)) =
      .ok (b, s) := by
  cases b <;> rfl

@[simp] theorem ite_ok_false (b : Bool) (s : σ) :
    (if b = true then (Except.ok (false, s) : Except Fault (Bool × σ)) else .ok (true, s)) =
      .ok (!b, s) := by
  cases b <;> rfl

theorem runs_stateAfter (h : finishes m s = true) :
    Runs m s () (stateAfter m s) := runs_after h

theorem watch_eq (m : EStateM Fault σ Unit) (s : σ) :
    Removal.watch s m = (outcome m s >>= fun x => .ok x.2) := by
  unfold Removal.watch outcome
  cases m.run s <;> rfl

namespace Peephole

/-! ## Rules -/

namespace Rule

variable {φ : Type}

@[simp] theorem outcome_allHold_nil (s : σ) :
    outcome (allHold ([] : List (EStateM Fault σ Bool))) s = .ok (true, s) := rfl

@[simp] theorem outcome_allHold_cons (t : EStateM Fault σ Bool) (ts : List (EStateM Fault σ Bool))
    (s : σ) :
    outcome (allHold (t :: ts)) s =
      (outcome t s >>= fun x => if x.1 then outcome (allHold ts) x.2 else .ok (false, x.2)) := by
  rw [allHold, outcome_bind]
  simp only [outcome_ite, outcome_pure]

@[simp] theorem outcome_noneHolds_nil (s : σ) :
    outcome (noneHolds ([] : List (EStateM Fault σ Bool))) s = .ok (true, s) := rfl

@[simp] theorem outcome_noneHolds_cons (t : EStateM Fault σ Bool)
    (ts : List (EStateM Fault σ Bool)) (s : σ) :
    outcome (noneHolds (t :: ts)) s =
      (outcome t s >>= fun x => if x.1 then .ok (false, x.2) else outcome (noneHolds ts) x.2) := by
  rw [noneHolds, outcome_bind]
  simp only [outcome_ite, outcome_pure]

@[simp] theorem outcome_takeFirst_nil (enter : φ → σ → σ) (s : σ) :
    outcome (takeFirst enter []) s = .ok ((), s) := rfl

@[simp] theorem outcome_takeFirst_cons (enter : φ → σ → σ) (r : Rule σ φ) (rs : List (Rule σ φ))
    (s : σ) :
    outcome (takeFirst enter (r :: rs)) s =
      (outcome r.applies s >>= fun x =>
        if x.1 then outcome (r.take enter) x.2 else outcome (takeFirst enter rs) x.2) := by
  rw [takeFirst, outcome_bind]
  simp only [outcome_ite]

@[simp] theorem outcome_applies (r : Rule σ φ) (s : σ) :
    outcome r.applies s =
      (outcome (allHold r.whenAll) s >>= fun x =>
        if x.1 then outcome (noneHolds r.unlessAny) x.2 else .ok (false, x.2)) := by
  unfold applies
  simp

@[simp] theorem outcome_take (enter : φ → σ → σ) (r : Rule σ φ) (s : σ) :
    outcome (r.take enter) s = outcome (r.after.forM id) (enter r.target s) := by
  unfold take
  simp

theorem leadsTo_step [DecidableEq φ] {phase : σ → φ} {enter : φ → σ → σ} {rules : List (Rule σ φ)}
    {p : φ} (hp : phase s = p) :
    LeadsTo (step phase enter rules) s r ↔
      outcome (takeFirst enter (rules.filter fun x => x.source = p)) s =
        (r >>= fun t => .ok ((), t)) := by
  subst hp
  rfl

end Rule

/-! ## Feeding instructions -/

/-- Feeds instructions, each with its position, to a recogniser. -/
def readAll (read : Word → Int → EStateM Fault σ Unit) (fed : List (Word × Int)) :
    EStateM Fault σ Unit :=
  fed.forM fun x => read x.1 x.2

variable {fed : List (Word × Int)}
variable {read : Word → Int → EStateM Fault σ Unit}

@[simp] theorem readAll_nil : readAll read [] = pure () := rfl

@[simp] theorem readAll_cons (x : Word × Int) (fed : List (Word × Int)) :
    readAll read (x :: fed) = (read x.1 x.2 >>= fun _ => readAll read fed) := rfl

theorem runs_readAll_concat {x : Word × Int} :
    Runs (readAll read (fed ++ [x])) s () t ↔
      ∃ u, Runs (readAll read fed) s () u ∧ Runs (read x.1 x.2) u () t := by
  induction fed generalizing s with
  | nil => simp
  | cons y fed ih =>
    simp only [List.cons_append, readAll_cons, runs_bind, ih]
    constructor
    · rintro ⟨a, v, hy, u, hfed, hx⟩
      exact ⟨u, ⟨a, v, hy, hfed⟩, hx⟩
    · rintro ⟨u, ⟨a, v, hy, hfed⟩, hx⟩
      exact ⟨a, v, hy, u, hfed, hx⟩

theorem readAll_invariant {F : List (Word × Int) → Prop} {P : List (Word × Int) → σ → Prop}
    (hF : ∀ fed x, F (fed ++ [x]) → F fed) (h0 : P [] s)
    (hstep : ∀ fed x u v, F (fed ++ [x]) → P fed u → Runs (read x.1 x.2) u () v → P (fed ++ [x]) v)
    (hfed : F fed) (h : Runs (readAll read fed) s () t) : P fed t := by
  induction fed using List.reverseRecOn generalizing t with
  | nil =>
    obtain ⟨_, rfl⟩ := runs_pure.mp h
    exact h0
  | append_singleton fed x ih =>
    obtain ⟨u, hu, hx⟩ := runs_readAll_concat.mp h
    exact hstep fed x u t hfed (ih (hF fed x hfed) hu) hx

theorem fails_readAll_iff :
    (∃ t, Fails (readAll read fed) s e t) ↔
      ∃ before x after u, fed = before ++ x :: after ∧ Runs (readAll read before) s () u ∧
        ∃ t, Fails (read x.1 x.2) u e t := by
  induction fed generalizing s with
  | nil => simp [fails_iff_outcome]
  | cons y fed ih =>
    simp only [readAll_cons, fails_bind, exists_or]
    constructor
    · rintro (⟨t, hy⟩ | ⟨t, a, u, hy, hfed⟩)
      · exact ⟨[], y, fed, s, rfl, runs_pure.mpr ⟨rfl, rfl⟩, t, hy⟩
      · obtain ⟨before, x, after, v, rfl, hv, hx⟩ := ih.mp ⟨t, hfed⟩
        exact ⟨y :: before, x, after, v, rfl, runs_bind.mpr ⟨a, u, hy, hv⟩, hx⟩
    · rintro ⟨before, x, after, u, hfed, hu, t, hx⟩
      cases before with
      | nil =>
        obtain ⟨rfl, rfl⟩ := List.cons.inj hfed
        obtain ⟨_, rfl⟩ := runs_pure.mp hu
        exact .inl ⟨t, hx⟩
      | cons z before =>
        obtain ⟨rfl, rfl⟩ := List.cons.inj hfed
        obtain ⟨a, v, hy, hv⟩ := runs_bind.mp hu
        obtain ⟨t', ht'⟩ := ih.mpr ⟨before, x, after, u, rfl, hv, t, hx⟩
        exact .inr ⟨t', a, v, hy, ht'⟩

/-! ## Groups -/

variable {e : Entry}

namespace Group

/-- The positions of a group. -/
def ids (g : Group) : List Int := g.map Entry.id

variable {g : Group}

theorem mem_ids_insert {i : Int} :
    i ∈ (g.insert e).ids ↔ i = e.id ∨ i ∈ g.ids := by
  unfold ids
  induction g with
  | nil => simp [Group.insert]
  | cons f g ih =>
    unfold Group.insert
    split
    · simp
    · split
      · next heq => simp [heq]
      · simp only [List.map_cons, List.mem_cons, ih]
        tauto

theorem insert_ne_nil (g : Group) (e : Entry) : g.insert e ≠ [] := by
  intro h
  have hmem : e.id ∈ (g.insert e).ids := mem_ids_insert.mpr (.inl rfl)
  rw [h] at hmem
  cases hmem

theorem sorted_insert (e : Entry) (h : g.ids.Pairwise (· < ·)) :
    (g.insert e).ids.Pairwise (· < ·) := by
  induction g with
  | nil => simp [Group.insert, ids]
  | cons f g ih =>
    have hrest : ∀ i ∈ ids g, f.id < i := (List.pairwise_cons.mp h).1
    have hg : (ids g).Pairwise (· < ·) := (List.pairwise_cons.mp h).2
    unfold Group.insert
    split
    · next hlt =>
      refine List.pairwise_cons.mpr ⟨?_, h⟩
      intro i hi
      rcases List.mem_cons.mp hi with rfl | hi
      · exact hlt
      · exact hlt.trans (hrest i hi)
    · split
      · next heq =>
        refine List.pairwise_cons.mpr ⟨?_, hg⟩
        rwa [heq]
      · next hlt hne =>
        refine List.pairwise_cons.mpr ⟨?_, ih hg⟩
        intro i hi
        rcases mem_ids_insert.mp hi with rfl | hi
        · omega
        · exact hrest i hi

theorem length_insert (h : e.id ∉ g.ids) :
    (g.insert e).length = g.length + 1 := by
  induction g with
  | nil => rfl
  | cons f g ih =>
    simp only [ids, List.map_cons, List.mem_cons, not_or] at h
    unfold Group.insert
    split
    · rfl
    · rw [if_neg h.1, List.length_cons, ih h.2, List.length_cons]

theorem insert_of_lt (h : ∀ i ∈ g.ids, i < e.id) :
    g.insert e = g ++ [e] := by
  induction g with
  | nil => rfl
  | cons f g ih =>
    have hf : f.id < e.id := h f.id (by simp [ids])
    unfold Group.insert
    rw [if_neg (by omega), if_neg (by omega), ih fun i hi => h i (by simp [ids] at hi ⊢; tauto)]
    rfl

theorem insert_of_mem {a b : Group} {x e : Entry} (hid : e.id = x.id)
    (h : (a ++ x :: b).ids.Pairwise (· < ·)) :
    Group.insert e (a ++ x :: b) = a ++ e :: b := by
  induction a with
  | nil =>
    rw [List.nil_append, List.nil_append, Group.insert, if_neg (by omega), if_pos hid]
  | cons f a ih =>
    simp only [ids, List.cons_append, List.map_cons, List.map_append, List.pairwise_cons,
      List.mem_append, List.mem_cons] at h
    have hf : f.id < x.id := h.1 x.id (.inr (.inl rfl))
    rw [List.cons_append, Group.insert, if_neg (by omega), if_neg (by omega), ih (by
      simpa [ids] using h.2)]
    rfl

end Group

/-- The entry of an instruction that a recogniser has gathered. -/
def Entry.gathered (word : Word) (id : Int) : Entry := { id, word, text := "NOP" }

@[simp] theorem Entry.gathered_id (w : Word) (id : Int) : (Entry.gathered w id).id = id := rfl

@[simp] theorem Entry.nop_id (id : Int) : (Entry.nop id).id = id := rfl

namespace Notes

variable {n : Notes}

/-- The group that is being gathered. -/
def pending (n : Notes) : Group := n.groups.getLastD []

/-- The groups that are finished. -/
def closed (n : Notes) : List Group := n.groups.dropLast

theorem groups_eq (h : n.groups ≠ []) : n.groups = n.closed ++ [n.pending] := by
  unfold closed pending
  rw [List.getLastD_eq_getLast?, List.getLast?_eq_some_getLast h, Option.getD_some,
    List.dropLast_concat_getLast]

theorem last_eq (h : n.groups ≠ []) : n.last = .ok n.pending := by
  unfold last pending
  rw [List.getLastD_eq_getLast?, List.getLast?_eq_some_getLast h]
  rfl

/-- The group that is being gathered becomes `g`. -/
def gather (n : Notes) (g : Group) : Notes := { n with groups := n.closed ++ [g] }

/-- The notes when a group is finished, and another is being gathered. -/
def finish (n : Notes) (g h : Group) : Notes := { n with groups := n.closed ++ [g, h] }

/-- An entry is put into the group that is being gathered. -/
def keep (n : Notes) (e : Entry) : Notes := n.gather (n.pending.insert e)

/-- The next instruction is noted. -/
def look (n : Notes) (w : Word) (id : Int) : Notes := { n with current := some (w, id) }

section
variable (n : Notes) (g h : Group) (w : Word) (id : Int)

@[simp] theorem gather_groups_ne_nil : (n.gather g).groups ≠ [] := by simp [gather]

@[simp] theorem gather_closed : (n.gather g).closed = n.closed := by simp [gather, closed]

@[simp] theorem gather_pending : (n.gather g).pending = g := by simp [gather, pending]

@[simp] theorem gather_gather : (n.gather g).gather h = n.gather h := by simp [gather, closed]

@[simp] theorem gather_current : (n.gather g).current = n.current := rfl

@[simp] theorem finish_groups_ne_nil : (n.finish g h).groups ≠ [] := by simp [finish]

@[simp] theorem finish_closed : (n.finish g h).closed = n.closed ++ [g] := by
  simp [finish, closed]

@[simp] theorem finish_pending : (n.finish g h).pending = h := by simp [finish, pending]

@[simp] theorem look_groups : (n.look w id).groups = n.groups := rfl

@[simp] theorem look_closed : (n.look w id).closed = n.closed := rfl

@[simp] theorem look_pending : (n.look w id).pending = n.pending := rfl

@[simp] theorem look_now : (n.look w id).now = .ok (w, id) := rfl

@[simp] theorem dropLast_addGroup : n.dropLast.addGroup = n.gather [] := rfl

@[simp] theorem gather_addGroup : (n.gather g).addGroup = n.finish g [] := by
  simp [gather, addGroup, finish]

end

theorem addGroup_eq (h : n.groups ≠ []) : n.addGroup = n.finish n.pending [] := by
  unfold addGroup finish
  conv_lhs => rw [groups_eq h]
  simp

@[simp] theorem look_fields {w : Word} {id : Int} (hw : Word.Proper w) :
    (n.look w id).fields = .ok (Word.unpacked w) :=
  Word.decode_proper hw

theorem put_eq (h : n.groups ≠ []) (e : Entry) : n.put e = .ok (n.keep e) := by
  unfold put
  rw [last_eq h]
  rfl

theorem put_replace {a b : Group} {x e : Entry} (hid : e.id = x.id)
    (h : (a ++ x :: b).ids.Pairwise (· < ·)) :
    (n.gather (a ++ x :: b)).put e = .ok (n.gather (a ++ e :: b)) := by
  rw [put_eq (by simp), keep, gather_pending, Group.insert_of_mem hid h, gather_gather]

@[simp] theorem keep_pending (n : Notes) (e : Entry) : (n.keep e).pending = n.pending.insert e :=
  gather_pending ..

@[simp] theorem keep_closed (n : Notes) (e : Entry) : (n.keep e).closed = n.closed :=
  gather_closed ..

/-- Notes with a group that is being gathered, of proper words in the order of their
    positions. -/
structure Sound (n : Notes) : Prop where
  groups : n.groups ≠ []
  sorted : n.pending.ids.Pairwise (· < ·)
  proper : ∀ e ∈ n.pending, Word.Proper e.word

theorem sound_of_empty (hg : n.groups ≠ []) (hpending : n.pending = []) : n.Sound := by
  refine ⟨hg, ?_, ?_⟩ <;> rw [hpending]
  · exact .nil
  · exact nofun

theorem Sound.keep (hn : n.Sound) (he : Word.Proper e.word) : (n.keep e).Sound := by
  refine ⟨gather_groups_ne_nil _ _, ?_, ?_⟩ <;> rw [keep_pending]
  · exact Group.sorted_insert e hn.sorted
  · intro x hx
    rcases Group.mem_insert hx with rfl | hx
    · exact he
    · exact hn.proper x hx

end Notes

theorem outcome_forM_replace (act : Entry → EStateM Fault σ Unit) (holding : Group → σ)
    (become : Entry → Entry) (hid : ∀ e, (become e).id = e.id) {rest : Group} (a : Group)
    (hact : ∀ e ∈ rest, ∀ a b : Group, (Group.ids (a ++ e :: b)).Pairwise (· < ·) →
      outcome (act e) (holding (a ++ e :: b)) = .ok ((), holding (a ++ become e :: b)))
    (h : (a ++ rest).ids.Pairwise (· < ·)) :
    outcome (rest.forM act) (holding (a ++ rest)) = .ok ((), holding (a ++ rest.map become)) := by
  induction rest generalizing a with
  | nil => rfl
  | cons e rest ih =>
    have hnext : (a ++ [become e] ++ rest).ids.Pairwise (· < ·) := by simpa [Group.ids, hid] using h
    have hrest := ih (a ++ [become e]) (fun x hx => hact x (List.mem_cons_of_mem _ hx)) hnext
    rw [List.forM_eq_forM, List.forM_cons, outcome_bind, hact e List.mem_cons_self a rest h,
      ok_bind]
    simpa using hrest

end Peephole
end BpfLanes
