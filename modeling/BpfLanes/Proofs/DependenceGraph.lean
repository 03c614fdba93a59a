import BpfLanes.Proofs.SlotSearch
import BpfLanes.Proofs.TopologicalOrder
import BpfLanes.Schedule
import Mathlib.Data.List.Induction

/-! # Edges and orders of dependence

An edge between two instructions of a block says that one reads what the other
wrote. The order in which instructions are placed has every instruction that does
something once, and each after those whose results it reads.
-/

namespace BpfLanes.Dependence

open Compilation

variable {e : Int × Int} {n : Nat} {liveIn liveOut : RegMap}

variable {body : List Instr}

/-! ## Readers of a value -/

/-- Instruction `j` reads what instruction `i` wrote to register `r`: nothing in
    between writes it. -/
structure Feeds (body : List Instr) (r : Int) (i j : Nat) : Prop where
  lt : i < j
  writer : ∃ a, body[i]? = some a ∧ a.writes r = true
  reader : ∃ a, body[j]? = some a ∧ a.reads r = true
  between : ∀ k a, i < k → k < j → body[k]? = some a → a.writes r = false

/-- Instruction `j` reads register `r`, which nothing before it in the block writes. -/
structure ReadsEntry (body : List Instr) (r : Int) (j : Nat) : Prop where
  reader : ∃ a, body[j]? = some a ∧ a.reads r = true
  before : ∀ k a, k < j → body[k]? = some a → a.writes r = false

/-- Instruction `i` writes register `r`, which nothing behind it in the block writes. -/
structure WritesLast (body : List Instr) (r : Int) (i : Nat) : Prop where
  writer : ∃ a, body[i]? = some a ∧ a.writes r = true
  behind : ∀ k a, i < k → body[k]? = some a → a.writes r = false

variable {r : Int}

theorem mem_readers {j : Nat} :
    j ∈ readers r n body ↔ ∃ k, j = n + k ∧ ReadsEntry body r k := by
  induction body generalizing n with
  | nil =>
    simp only [readers, List.not_mem_nil, false_iff]
    rintro ⟨k, _, ⟨_, ⟨⟩, _⟩, _⟩
  | cons i rest ih =>
    rw [readers, List.mem_append]
    constructor
    · rintro (h | h)
      · split at h
        · next hreads =>
          obtain rfl := List.mem_singleton.mp h
          exact ⟨0, rfl, ⟨i, rfl, hreads⟩, fun l a hl => absurd hl (by omega)⟩
        · cases h
      · split at h
        · cases h
        next hwrites =>
        obtain ⟨k, rfl, hread, hbefore⟩ := ih.mp h
        refine ⟨k + 1, by omega, hread, ?_⟩
        intro l a hl ha
        cases l with
        | zero =>
          cases ha
          simpa using hwrites
        | succ l => exact hbefore l a (by omega) ha
    · rintro ⟨k, rfl, ⟨a, ha, hread⟩, hbefore⟩
      cases k with
      | zero =>
        cases ha
        rw [if_pos hread]
        exact .inl (by simp)
      | succ k =>
        refine .inr ?_
        rw [if_neg (by simpa using hbefore 0 i (by omega) rfl)]
        refine ih.mpr ⟨k, by omega, ⟨a, ha, hread⟩, ?_⟩
        intro l a hl ha
        exact hbefore (l + 1) a (by omega) ha

theorem pairwise_readers : (readers r n body).Pairwise (· < ·) := by
  induction body generalizing n with
  | nil => exact List.Pairwise.nil
  | cons i rest ih =>
    refine List.pairwise_append.mpr ⟨by split <;> simp, by split <;> simp [ih], ?_⟩
    intro a ha b hb
    obtain rfl : a = n := by
      split at ha
      · exact List.mem_singleton.mp ha
      · cases ha
    split at hb
    · cases hb
    · obtain ⟨k, rfl, _⟩ := mem_readers.mp hb
      omega

theorem lastWriter?_concat {a : Instr} : lastWriter? r (body ++ [a]) =
    if a.writes r then some body.length else lastWriter? r body := by
  unfold lastWriter?
  rw [List.zipIdx_append, List.reverse_append]
  cases hwrites : a.writes r <;> simp [hwrites]

theorem lastWriter?_eq_some {i : Nat} :
    lastWriter? r body = some i ↔ WritesLast body r i := by
  induction body using List.reverseRecOn with
  | nil =>
    constructor
    · rintro ⟨⟩
    · rintro ⟨⟨_, ⟨⟩, _⟩, _⟩
  | append_singleton body a ih =>
    have hget : ∀ (k : Nat) (b : Instr), (body ++ [a])[k]? = some b ↔
        body[k]? = some b ∨ k = body.length ∧ b = a := by grind
    rw [lastWriter?_concat]
    constructor
    · intro h
      split at h
      · next hwrites =>
        cases h
        exact ⟨⟨a, by simp, hwrites⟩, by grind⟩
      · next hwrites =>
        obtain ⟨⟨b, hb, hw⟩, hbehind⟩ := ih.mp h
        exact ⟨⟨b, (hget i b).mpr (.inl hb), hw⟩, by grind⟩
    · rintro ⟨⟨b, hb, hw⟩, hbehind⟩
      rcases (hget i b).mp hb with hin | ⟨rfl, rfl⟩
      · have hlt := (List.getElem?_eq_some_iff.mp hin).1
        rw [hbehind body.length a hlt (by simp), if_neg Bool.false_ne_true]
        exact ih.mpr ⟨⟨b, hin, hw⟩, fun k c hk hc => hbehind k c hk ((hget k c).mpr (.inl hc))⟩
      · rw [if_pos hw]

/-- Edges inside a block lead from the instruction that writes a value to those that
    read it. -/
theorem mem_innerEdges {x y : Int} :
    (x, y) ∈ innerEdges n body ↔ ∃ i j r, x = (n + i : Nat) ∧ y = (n + j : Nat) ∧ Feeds body r i j := by
  induction body generalizing n with
  | nil =>
    simp only [innerEdges, List.not_mem_nil, false_iff]
    rintro ⟨i, j, r, _, _, hfeeds⟩
    obtain ⟨a, ha, _⟩ := hfeeds.writer
    cases ha
  | cons a rest ih =>
    rw [innerEdges, List.mem_append]
    constructor
    · rintro (h | h)
      · cases ho : a.output with
        | none =>
          rw [ho] at h
          cases h
        | some o =>
          rw [ho] at h
          obtain ⟨j, hj, heq⟩ := List.mem_map.mp h
          obtain ⟨rfl, rfl⟩ : (n : Int) = x ∧ (j : Int) = y := by simpa using heq
          obtain ⟨k, rfl, hread, hbefore⟩ := mem_readers.mp hj
          refine ⟨0, k + 1, o.register, rfl, by congr 1; omega, by omega, ⟨a, rfl, ?_⟩, hread, ?_⟩
          · simp [Instr.writes, ho]
          · intro l b hl hlt hb
            cases l with
            | zero => omega
            | succ l => exact hbefore l b (by omega) hb
      · obtain ⟨i, j, r, rfl, rfl, hfeeds⟩ := ih.mp h
        refine ⟨i + 1, j + 1, r, by congr 1; omega, by congr 1; omega, ?_⟩
        refine ⟨by have := hfeeds.lt; omega, hfeeds.writer, hfeeds.reader, ?_⟩
        intro l b hl hlt hb
        cases l with
        | zero => omega
        | succ l => exact hfeeds.between l b (by omega) (by omega) hb
    · rintro ⟨i, j, r, rfl, rfl, hfeeds⟩
      have hlt := hfeeds.lt
      cases j with
      | zero => omega
      | succ j =>
        cases i with
        | zero =>
          refine Or.inl ?_
          obtain ⟨b, hb, hwrites⟩ := hfeeds.writer
          obtain rfl := Option.some.inj hb
          cases ho : a.output with
          | none => simp [Instr.writes, ho] at hwrites
          | some o =>
            obtain rfl : o.register = r := by simpa [Instr.writes, ho] using hwrites
            refine List.mem_map.mpr ⟨n + 1 + j, mem_readers.mpr ⟨j, rfl, hfeeds.reader, ?_⟩, ?_⟩
            · intro l b hl hb
              exact hfeeds.between (l + 1) b (by omega) (by omega) hb
            · simp only [Prod.mk.injEq]
              omega
        | succ i =>
          refine Or.inr (ih.mpr ⟨i, j, r, by congr 1; omega, by congr 1; omega, ?_⟩)
          refine ⟨by omega, hfeeds.writer, hfeeds.reader, ?_⟩
          intro l b hl hlt' hb
          exact hfeeds.between (l + 1) b (by omega) (by omega) hb

theorem pairwise_innerEdges :
    (innerEdges n body).Pairwise fun e e' => e.1 < e'.1 ∨ e.1 = e'.1 ∧ e.2 < e'.2 := by
  induction body generalizing n with
  | nil => exact List.Pairwise.nil
  | cons a rest ih =>
    refine List.pairwise_append.mpr ⟨?_, ih, ?_⟩
    · cases a.output with
      | none => exact List.Pairwise.nil
      | some o =>
        rw [List.pairwise_map]
        exact pairwise_readers.imp fun h => .inr ⟨rfl, Int.ofNat_lt.mpr h⟩
    · rintro e he ⟨x, y⟩ he'
      obtain ⟨i, j, r, rfl, _⟩ := mem_innerEdges.mp he'
      cases ho : a.output with
      | none =>
        rw [ho] at he
        cases he
      | some o =>
        rw [ho] at he
        obtain ⟨k, _, rfl⟩ := List.mem_map.mp he
        refine .inl ?_
        show (n : Int) < (n + 1 + i : Nat)
        omega

/-! ## The graph of a block -/

theorem mem_entryEdges : e ∈ entryEdges liveIn body ↔
    ∃ (j : Nat) (r : Int), e = (-1, (j : Int)) ∧ liveIn.has r = true ∧ ReadsEntry body r j := by
  unfold entryEdges RegMap.has
  simp only [List.mem_flatMap, List.mem_map, mem_readers, List.any_eq_true, beq_iff_eq]
  constructor
  · rintro ⟨x, hx, j, ⟨k, rfl, hreads⟩, rfl⟩
    exact ⟨k, x.1, by simp, ⟨x, hx, rfl⟩, hreads⟩
  · rintro ⟨j, r, rfl, ⟨x, hx, rfl⟩, hreads⟩
    exact ⟨x, hx, j, ⟨j, by simp, hreads⟩, rfl⟩

theorem mem_exitEdges : e ∈ exitEdges liveOut body ↔
    ∃ (i : Nat) (r : Int), e = ((i : Int), (body.length : Int)) ∧ liveOut.has r = true ∧
      WritesLast body r i := by
  unfold exitEdges RegMap.has
  simp only [List.mem_flatMap, List.mem_map, Option.mem_toList, lastWriter?_eq_some,
    List.any_eq_true, beq_iff_eq]
  constructor
  · rintro ⟨x, hx, i, hlast, rfl⟩
    exact ⟨i, x.1, rfl, ⟨x, hx, rfl⟩, hlast⟩
  · rintro ⟨i, r, rfl, ⟨x, hx, rfl⟩, hlast⟩
    exact ⟨x, hx, i, hlast, rfl⟩

/-- What comes after the block waits for instruction `i`: it is the last to write a register
    that is needed there, or a branch that ends the block. -/
def LeavesBlock (liveOut : RegMap) (body : List Instr) (i : Nat) : Prop :=
  (∃ r, liveOut.has r = true ∧ WritesLast body r i) ∨
    i + 1 = body.length ∧ ∃ a f, body[i]? = some a ∧ Fields.decode a.word = .ok f ∧ f.isBranch = true

/-- The edges of a graph come in three parts: those from before the block, those to what comes
    after it, and those inside. -/
theorem graph_edges {g : Digraph} (h : graph liveIn liveOut body = .ok g) : ∃ leaving,
    g = Digraph.ofLists (nodes body.length)
      (entryEdges liveIn body ++ (leaving ++ innerEdges 0 body)) ∧
    ∀ e, e ∈ leaving ↔ ∃ i : Nat, e = ((i : Int), (body.length : Int)) ∧ LeavesBlock liveOut body i := by
  unfold graph at h
  split at h
  · next last hlast =>
    obtain ⟨f, hf, h⟩ := bind_eq_ok.mp h
    obtain rfl := Except.ok.inj h
    rw [List.getLast?_eq_getElem?] at hlast
    have hpos := (List.getElem?_eq_some_iff.mp hlast).1
    refine ⟨exitEdges liveOut body ++ (if f.isBranch then [((body.length : Int) - 1,
      (body.length : Int))] else []), by simp only [List.append_assoc], ?_⟩
    intro e
    rw [List.mem_append, mem_exitEdges]
    constructor
    · rintro (⟨i, r, rfl, hlive, hwrites⟩ | hclose)
      · exact ⟨i, rfl, Or.inl ⟨r, hlive, hwrites⟩⟩
      · split at hclose
        · next hbranch =>
          obtain rfl := List.mem_singleton.mp hclose
          exact ⟨body.length - 1, by congr 1; omega, Or.inr ⟨by omega, last, f, hlast, hf, hbranch⟩⟩
        · cases hclose
    · rintro ⟨i, rfl, ⟨r, hlive, hwrites⟩ | ⟨hi, a, f', ha, hf', hbranch⟩⟩
      · exact Or.inl ⟨i, r, rfl, hlive, hwrites⟩
      obtain rfl : i = body.length - 1 := by omega
      cases hlast.symm.trans ha
      cases hf.symm.trans hf'
      rw [if_pos hbranch]
      refine Or.inr (List.mem_singleton.mpr ?_)
      congr 1
      omega
  · cases h

theorem LeavesBlock.lt {i : Nat} (h : LeavesBlock liveOut body i) : i < body.length := by
  rcases h with ⟨r, _, ⟨a, ha, _⟩, _⟩ | ⟨hi, _⟩
  · exact (List.getElem?_eq_some_iff.mp ha).1
  · omega

theorem Feeds.lt_length {i j : Nat} (h : Feeds body r i j) : j < body.length := by
  obtain ⟨a, ha, _⟩ := h.reader
  exact (List.getElem?_eq_some_iff.mp ha).1

variable {g : Digraph}

section
variable (h : graph liveIn liveOut body = .ok g)
include h

theorem mem_graph_edges : e ∈ g.edges ↔
    (∃ (j : Nat) (r : Int), e = (-1, (j : Int)) ∧ liveIn.has r = true ∧ ReadsEntry body r j) ∨
    (∃ i : Nat, e = ((i : Int), (body.length : Int)) ∧ LeavesBlock liveOut body i) ∨
    ∃ (i j : Nat) (r : Int), e = ((i : Int), (j : Int)) ∧ Feeds body r i j := by
  obtain ⟨leaving, rfl, hleaving⟩ := graph_edges h
  rw [Digraph.mem_edges_ofLists, List.mem_append, List.mem_append, mem_entryEdges, hleaving]
  obtain ⟨x, y⟩ := e
  rw [mem_innerEdges]
  simp only [Nat.zero_add, Prod.mk.injEq, and_assoc]

/-- Edges to one instruction are listed by where they start. Of the edges from one instruction
    the one that leaves the block is listed first, and then the others by where they end. -/
theorem pairwise_graph_edges :
    g.edges.Pairwise fun e e' : Int × Int => (e'.1 = -1 → e.1 = -1) ∧
      (e.2 = e'.2 → e.2 < body.length → e.1 ≤ e'.1) ∧
      (e.1 = e'.1 → 0 ≤ e.1 → e.2 = body.length ∨ e'.2 ≠ body.length ∧ e.2 < e'.2) := by
  obtain ⟨leaving, rfl, hleaving⟩ := graph_edges h
  have hentry : ∀ e ∈ entryEdges liveIn body, e.1 = -1 := by
    intro e he
    obtain ⟨j, r, rfl, _⟩ := mem_entryEdges.mp he
    rfl
  have hleave : ∀ e ∈ leaving, 0 ≤ e.1 ∧ e.2 = body.length := by
    intro e he
    obtain ⟨i, rfl, _⟩ := (hleaving e).mp he
    exact ⟨Int.natCast_nonneg i, rfl⟩
  have hinner : ∀ e ∈ innerEdges 0 body, 0 ≤ e.1 ∧ e.2 < body.length := by
    intro e he
    obtain ⟨i, j, r, h₁, h₂, hfeeds⟩ := mem_innerEdges.mp he
    have := hfeeds.lt_length
    omega
  refine List.Pairwise.sublist Digraph.edges_ofLists_sublist ?_
  refine List.pairwise_append.mpr ⟨?_, List.pairwise_append.mpr ⟨?_, ?_, ?_⟩, ?_⟩
  · refine List.pairwise_of_forall_mem_list fun e he e' he' => ?_
    have := hentry e he
    have := hentry e' he'
    omega
  · refine List.pairwise_of_forall_mem_list fun e he e' he' => ?_
    have := hleave e he
    have := hleave e' he'
    omega
  · refine pairwise_innerEdges.imp_of_mem fun {e e'} _ he' hlex => ?_
    have := hinner e' he'
    omega
  · intro e he e' he'
    have := hleave e he
    have := hinner e' he'
    omega
  · intro e he e' he'
    have := hentry e he
    rcases List.mem_append.mp he' with he' | he'
    · have := hleave e' he'
      omega
    · have := hinner e' he'
      omega

/-- What is known about the edges of a block. -/
structure EdgesOf (body : List Instr) (g : Digraph) : Prop where
  simple : g.Simple
  node : ∀ n : Nat, n < body.length → (n : Int) ∈ g.nodes
  ascend : ∀ e ∈ g.edges, e.1 < e.2
  feeds : ∀ {r : Int} {i j : Nat}, Feeds body r i j → ((i : Int), (j : Int)) ∈ g.edges
  entryFirst : ∀ n, (g.before n).Pairwise fun p q => q = -1 → p = -1
  inner : ∀ (p : Int) (n : Nat), n < body.length → (p, (n : Int)) ∈ g.edges → p ≠ -1 →
    ∃ (r : Int) (i : Nat), p = i ∧ Feeds body r i n

theorem graph_spec : EdgesOf body g := by
  have hlists := graph_edges h
  have hmem := fun {e : Int × Int} => mem_graph_edges (e := e) h
  refine ⟨?_, ?_, ?_, fun hfeeds => hmem.mpr (.inr (.inr ⟨_, _, _, rfl, hfeeds⟩)), ?_, ?_⟩
  · obtain ⟨_, rfl, _⟩ := hlists
    exact Digraph.simple_ofLists
  · intro n hn
    obtain ⟨_, rfl, _⟩ := hlists
    refine Digraph.mem_nodes_ofLists.mpr (.inl ?_)
    refine List.mem_cons_of_mem _ (List.mem_cons_of_mem _ ?_)
    exact List.mem_map.mpr ⟨n, List.mem_range.mpr hn, rfl⟩
  · intro e he
    rcases hmem.mp he with ⟨j, r, rfl, _⟩ | ⟨i, rfl, hleaves⟩ | ⟨i, j, r, rfl, hfeeds⟩
    · show (-1 : Int) < j
      omega
    · exact Int.ofNat_lt.mpr hleaves.lt
    · exact Int.ofNat_lt.mpr hfeeds.lt
  · intro n
    exact ((pairwise_graph_edges h).filter _).map _ fun _ _ h => h.1
  · intro p n hn he hp
    rcases hmem.mp he with ⟨j, r, heq, _⟩ | ⟨i, heq, _⟩ | ⟨i, j, r, heq, hfeeds⟩
    · exact absurd (congrArg Prod.fst heq) hp
    · have hend := congrArg Prod.snd heq
      omega
    · obtain ⟨rfl, hj⟩ := Prod.mk.inj heq
      obtain rfl := Int.ofNat.inj hj
      exact ⟨r, i, rfl, hfeeds⟩

end

end BpfLanes.Dependence

namespace BpfLanes.Schedule

open Compilation

variable {c d : Compilation} {blk : Block}

/-! ## The order of placement -/

/-- Instruction `n` of a block, with its number in the store. -/
def InstrAt (c : Compilation) (blk : Block) (n : Int) (id : Nat) (i : Instr) : Prop :=
  Position.get blk.body n = .ok id ∧ c.store[id]? = some i

/-- Instruction `n` of a block has the fields `f`. -/
def FieldsAt (c : Compilation) (blk : Block) (n : Int) (f : Fields) : Prop :=
  ∃ id i, InstrAt c blk n id i ∧ Fields.decode i.word = .ok f

instance (c : Compilation) (blk : Block) (n : Int) (f : Fields) : Decidable (FieldsAt c blk n f) :=
  decidable_of_iff
    (∃ id, id ∈ (Position.get blk.body n).toOption ∧ ∃ i, i ∈ c.store[id]? ∧
      Fields.decode i.word = .ok f) (by
    constructor
    · rintro ⟨id, hid, i, hi, hf⟩
      refine ⟨id, i, ⟨?_, hi⟩, hf⟩
      cases hget : Position.get blk.body n with
      | ok id' =>
        rw [hget] at hid
        cases hid
        rfl
      | error fault =>
        rw [hget] at hid
        cases hid
    · rintro ⟨id, i, ⟨hid, hi⟩, hf⟩
      refine ⟨id, ?_, i, hi, hf⟩
      rw [hid]
      rfl)

theorem InstrAt.unique {n : Int} {id id' : Nat} {i i' : Instr} (h : InstrAt c blk n id i)
    (h' : InstrAt c blk n id' i') : id = id' ∧ i = i' := by
  obtain rfl := Except.ok.inj (h.1.symm.trans h'.1)
  exact ⟨rfl, Option.mem_unique h.2 h'.2⟩

theorem FieldsAt.unique {n : Int} {f f' : Fields} (h : FieldsAt c blk n f)
    (h' : FieldsAt c blk n f') : f = f' := by
  obtain ⟨id, i, hi, hf⟩ := h
  obtain ⟨id', i', hi', hf'⟩ := h'
  obtain ⟨rfl, rfl⟩ := hi.unique hi'
  exact Except.ok.inj (hf.symm.trans hf')

theorem FieldsAt.index_lt {k : Nat} {f : Fields} (h : FieldsAt c blk k f) : k < blk.body.size := by
  obtain ⟨id, i, ⟨hid, _⟩, _⟩ := h
  rw [Position.get_natCast] at hid
  exact lt_size hid

/-- Some instructions were sorted into those that do something and are no branch, and
    a branch. -/
structure Sorted (c : Compilation) (blk : Block) (xs : List Int) (acc : List Int × Option Int) :
    Prop where
  sublist : acc.1.Sublist xs
  plain : ∀ n ∈ acc.1, ∃ f, FieldsAt c blk n f ∧ f.isNop = false ∧ f.isBranch = false
  branch : ∀ n, acc.2 = some n →
    n ∈ xs ∧ ∃ f, FieldsAt c blk n f ∧ f.isNop = false ∧ f.isBranch = true
  all : ∀ n ∈ xs, ∀ f, FieldsAt c blk n f → f.isNop = false →
    n ∈ acc.1 ∨ (f.isBranch = true ∧ acc.2.isSome = true)

section
variable {xs : List Int} {acc : List Int × Option Int} {x : Int} {f : Fields}
variable (h : Sorted c blk xs acc) (hf : FieldsAt c blk x f)
include h hf

theorem Sorted.skip (hnop : f.isNop = true) : Sorted c blk (xs ++ [x]) acc := by
  refine ⟨h.sublist.trans (List.sublist_append_left _ _), h.plain, ?_, ?_⟩
  · intro n hn
    obtain ⟨hmem, hrest⟩ := h.branch n hn
    exact ⟨List.mem_append_left _ hmem, hrest⟩
  · refine List.forall_mem_append.mpr ⟨h.all, List.forall_mem_singleton.mpr ?_⟩
    intro f' hf' hnop'
    rw [hf.unique hf', hnop'] at hnop
    cases hnop

theorem Sorted.setBranch (hnop : f.isNop = false) (hbranch : f.isBranch = true) :
    Sorted c blk (xs ++ [x]) (acc.1, some x) := by
  refine ⟨h.sublist.trans (List.sublist_append_left _ _), h.plain, ?_, ?_⟩
  · intro n hn
    cases hn
    exact ⟨by simp, f, hf, hnop, hbranch⟩
  · intro n hn f' hf' hnop'
    rcases List.mem_append.mp hn with hn | hn
    · rcases h.all n hn f' hf' hnop' with hmem | ⟨hb, _⟩
      · exact .inl hmem
      · exact .inr ⟨hb, rfl⟩
    · obtain rfl := List.mem_singleton.mp hn
      rw [← hf.unique hf']
      exact .inr ⟨hbranch, rfl⟩

theorem Sorted.append (hnop : f.isNop = false) (hbranch : f.isBranch = false) :
    Sorted c blk (xs ++ [x]) (acc.1 ++ [x], acc.2) := by
  refine ⟨h.sublist.append (List.Sublist.refl _), ?_, ?_, ?_⟩
  · exact List.forall_mem_append.mpr
      ⟨h.plain, List.forall_mem_singleton.mpr ⟨f, hf, hnop, hbranch⟩⟩
  · intro n hn
    obtain ⟨hmem, hrest⟩ := h.branch n hn
    exact ⟨List.mem_append_left _ hmem, hrest⟩
  · intro n hn f' hf' hnop'
    rcases List.mem_append.mp hn with hn | hn
    · rcases h.all n hn f' hf' hnop' with hmem | hb
      · exact .inl (List.mem_append_left _ hmem)
      · exact .inr hb
    · exact .inl (List.mem_append_right _ hn)

end

/-- A list has every instruction of a block that does something once, in their order
    and so none before one that it depends on. -/
structure PlacesAll (c : Compilation) (blk : Block) (g : Digraph) (order : List Int) : Prop where
  mem : ∀ n, n ∈ order ↔ 0 ≤ n ∧ n < blk.body.size ∧ ∃ f, FieldsAt c blk n f ∧ f.isNop = false
  ascend : order.Pairwise (· < ·)
  nodup : order.Nodup
  forward : Digraph.Forward g.edges order

variable {g : Digraph} {order done rest : List Int} {n : Int}

theorem PlacesAll.index (h : PlacesAll c blk g order) (hn : n ∈ order) :
    ∃ k : Nat, n = k ∧ k < blk.body.size := by
  obtain ⟨hlow, hhigh, _⟩ := (h.mem n).mp hn
  obtain ⟨k, rfl⟩ := Int.eq_ofNat_of_zero_le hlow
  exact ⟨k, rfl, by omega⟩

theorem PlacesAll.next (h : PlacesAll c blk g order) (horder : order = done ++ n :: rest) :
    ∃ k : Nat, n = k ∧ k < blk.body.size :=
  h.index (by rw [horder]; simp)

theorem PlacesAll.not_mem_done (h : PlacesAll c blk g order) (horder : order = done ++ n :: rest) :
    n ∉ done := by
  have hnodup := h.nodup
  rw [horder] at hnodup
  intro hmem
  exact (List.nodup_append.mp hnodup).2.2 _ hmem _ (by simp) rfl

theorem placesAll_of_ascend
    (hmem : ∀ n, n ∈ order ↔ 0 ≤ n ∧ n < blk.body.size ∧ ∃ f, FieldsAt c blk n f ∧ f.isNop = false)
    (hascend : order.Pairwise (· < ·)) (hedges : ∀ e ∈ g.edges, e.1 < e.2) :
    PlacesAll c blk g order where
  mem := hmem
  ascend := hascend
  nodup := hascend.imp fun hlt => by omega
  forward := hascend.imp fun {a b} hlt hedge => by
    have hback : b < a := hedges (b, a) hedge
    omega

theorem placementOrder_sorted (h : Runs (placementOrder blk g) c order d) :
    d = c ∧ ∃ all acc, g.smallestFirst = .ok all ∧ order = acc.1 ++ acc.2.toList ∧
      Sorted c blk (all.filter fun (n : Int) => 0 ≤ n && n < blk.body.size) acc := by
  unfold placementOrder at h
  rw [runs_lift_bind] at h
  obtain ⟨all, hall, h⟩ := h
  generalize hxs : (all.filter fun (n : Int) => 0 ≤ n && n < blk.body.size) = xs at h
  obtain ⟨acc, c', hr, hret⟩ := runs_bind.mp h
  have hfold := runs_foldlM_induct
    (fun done acc d => d = c ∧ Sorted c blk done acc) hr ?_ ?_
  · obtain ⟨rfl, hsorted⟩ := hfold
    obtain ⟨rfl, rfl⟩ := runs_pure.mp hret
    exact ⟨rfl, all, acc, hall, rfl, hxs ▸ hsorted⟩
  · exact ⟨rfl, ⟨List.Sublist.refl _, by simp, by simp, by simp⟩⟩
  · rintro done x rest acc d r t _ ⟨rfl, hsorted⟩ hstep
    rw [runs_instrAt_bind] at hstep
    obtain ⟨id, i, hid, hi, hstep⟩ := hstep
    rw [runs_fieldsOf_bind] at hstep
    obtain ⟨f, hf, hstep⟩ := hstep
    have hfields : FieldsAt d blk x f := ⟨id, i, ⟨hid, hi⟩, hf⟩
    split at hstep
    · next hnop =>
      obtain ⟨rfl, rfl⟩ := runs_pure.mp hstep
      exact ⟨rfl, hsorted.skip hfields hnop⟩
    · next hnop =>
      split at hstep
      · next hbranch =>
        obtain ⟨rfl, rfl⟩ := runs_pure.mp hstep
        exact ⟨rfl, hsorted.setBranch hfields (by simpa using hnop) hbranch⟩
      · next hbranch =>
        obtain ⟨rfl, rfl⟩ := runs_pure.mp hstep
        exact ⟨rfl, hsorted.append hfields (by simpa using hnop) (by simpa using hbranch)⟩

/-- A block whose only branch is its last instruction is placed as a whole. -/
theorem placementOrder_spec {body : List Instr} (hg : Dependence.EdgesOf body g)
    (hsize : body.length = blk.body.size)
    (hbranch : ∀ (n : Int) f, 0 ≤ n → n < blk.body.size → FieldsAt c blk n f → f.isBranch = true → n = (blk.body.size : Int) - 1)
    (h : Runs (placementOrder blk g) c order d) :
    d = c ∧ PlacesAll c blk g order := by
  obtain ⟨rfl, all, acc, hall, rfl, hsorted⟩ := placementOrder_sorted h
  have hperm := (Digraph.smallestFirst_spec hg.simple.nodes hall).1
  have hascend := Digraph.smallestFirst_of_ascending hg.simple hg.ascend hall
  generalize hxs : (all.filter fun (n : Int) => 0 ≤ n && n < blk.body.size) = xs at hsorted
  have hmem : ∀ n, n ∈ xs ↔ n ∈ all ∧ 0 ≤ n ∧ n < blk.body.size := by
    subst hxs
    intro n
    simp
  have hsub : xs.Sublist all := by
    subst hxs
    exact List.filter_sublist
  -- the branch is the last instruction of the block
  have hlast : ∀ n, acc.2 = some n → n = (blk.body.size : Int) - 1 ∧ n ∉ acc.1 := by
    intro n hn
    obtain ⟨hin, f, hf, _, hb⟩ := hsorted.branch n hn
    obtain ⟨_, hlow, hhigh⟩ := (hmem n).mp hin
    refine ⟨hbranch n f hlow hhigh hf hb, ?_⟩
    intro hplain
    obtain ⟨f', hf', _, hb'⟩ := hsorted.plain n hplain
    rw [hf.unique hf', hb'] at hb
    cases hb
  refine ⟨rfl, placesAll_of_ascend ?_ ?_ hg.ascend⟩
  · intro n
    constructor
    · intro hn
      rcases List.mem_append.mp hn with hn | hn
      · obtain ⟨f, hf, hnop, _⟩ := hsorted.plain n hn
        obtain ⟨_, hlow, hhigh⟩ := (hmem n).mp (hsorted.sublist.subset hn)
        exact ⟨hlow, hhigh, f, hf, hnop⟩
      · obtain ⟨hin, f, hf, hnop, _⟩ := hsorted.branch n (by simpa using hn)
        obtain ⟨_, hlow, hhigh⟩ := (hmem n).mp hin
        exact ⟨hlow, hhigh, f, hf, hnop⟩
    · rintro ⟨hlow, hhigh, f, hf, hnop⟩
      have hin : n ∈ all := by
        refine hperm.mem_iff.mpr ?_
        have hnode := hg.node n.toNat (by omega)
        rwa [Int.toNat_of_nonneg hlow] at hnode
      rcases hsorted.all n ((hmem n).mpr ⟨hin, hlow, hhigh⟩) f hf hnop with hn | ⟨hb, hsome⟩
      · exact List.mem_append_left _ hn
      · obtain ⟨n', hn'⟩ := Option.isSome_iff_exists.mp hsome
        have heq := hbranch n f hlow hhigh hf hb
        rw [heq, ← (hlast n' hn').1, hn']
        simp
  · refine List.pairwise_append.mpr ⟨hascend.sublist (hsorted.sublist.trans hsub), ?_, ?_⟩
    · cases acc.2 <;> simp
    intro a ha b hb
    have hb' : acc.2 = some b := by simpa using hb
    obtain ⟨hlast, hnot⟩ := hlast b hb'
    have hhigh := ((hmem a).mp (hsorted.sublist.subset ha)).2.2
    have hne : a ≠ b := by
      rintro rfl
      exact hnot ha
    omega

end BpfLanes.Schedule
