import BpfLanes.Proofs.GroupEntries
import BpfLanes.Proofs.SixByteCopies

/-! # Which alternating copies are copies

The recogniser of alternating copies looks at offsets only: neither at the registers
that the accesses go through nor at those that hold the pieces. The loads and the
stores are tested apart from each other. What it finishes is a copy of six bytes
exactly if all pieces are of one size, there is one register for each side, and each
store puts down the register of the load before it, at one and the same distance from
where it was loaded.
-/

namespace BpfLanes.Peephole

open Word (Proper unpacked)

variable {p : (Word × Int) × (Word × Int)} {t : CopyPairs} {g : Group} {a c low : Int}
  {front : List ((Word × Int) × (Word × Int))} {fed : List (Word × Int)}

namespace Span

variable {d : Direction} {l s load store : Span} {size offset : Int} {ps : List ((Int × Int) × (Int × Int))}

/-! ## Histories of pairs -/

/-- The stores when the second load has decided about the direction. -/
def turned (s : Span) (d d' : Direction) (high : Int) : Span :=
  if d = .pending ∧ d' = .forward then s.turnForward high else s

/-- The spans of loads and stores that took turns. A load and a store passed their tests
    in the state before them. -/
inductive Paired : Direction → Span → Span → List ((Int × Int) × (Int × Int)) → Prop
  | first (x y : Int × Int) : Paired .pending (start {} x.1 x.2) (start {} y.1 y.2) [(x, y)]
  | next {d : Direction} {load store : Span} {ps : List ((Int × Int) × (Int × Int))}
      {x y : Int × Int} (h : Paired d load store ps)
      (hopen : store.isFull d ps.length x.2 = false)
      (hload : load.continues d false x.1 x.2 ((piecesOf x.2 - ps.length) * x.2) = true)
      (hstore : storeFits (store.turned d (load.push d x.1 x.2).1 (x.1 + x.2))
        (load.push d x.1 x.2).1 ps.length y.1 y.2) :
      Paired (load.push d x.1 x.2).1 (load.push d x.1 x.2).2
        ((store.turned d (load.push d x.1 x.2).1 (x.1 + x.2)).push (load.push d x.1 x.2).1
          y.1 y.2).2 (ps ++ [(x, y)])

theorem Paired.ne_nil (h : Paired d load store ps) : ps ≠ [] := by
  cases h <;> simp

end Span

namespace CopyPairs

variable {ps : List ((Word × Int) × (Word × Int))}

/-! ## What was gathered -/

/-- The pieces of a load and a store. -/
def pairPieces (p : (Word × Int) × (Word × Int)) : (Int × Int) × (Int × Int) :=
  (loadPiece p.1, storePiece p.2)

/-- Pairs of instructions as one list. -/
def flat (ps : List ((Word × Int) × (Word × Int))) : List (Word × Int) :=
  ps.flatMap fun p => [p.1, p.2]

/-- The state of the recogniser after some pairs and perhaps a load. -/
inductive Tracks (s : CopyPairs) :
    List ((Word × Int) × (Word × Int)) → Option (Word × Int) → Prop
  | idle (hp : s.phase = .idle) : Tracks s [] none
  | first {x : Word × Int} (hp : s.phase = .loaded) (hheading : s.heading = .pending)
      (hload : s.load = Span.start {} (loadPiece x).1 (loadPiece x).2)
      (hcount : s.progress.count = 0) : Tracks s [] (some x)
  | loaded {ps : List ((Word × Int) × (Word × Int))} {x : Word × Int} {d : Direction}
      {load store : Span} (hp : s.phase = .loaded)
      (hpaired : Span.Paired d load store (ps.map pairPieces))
      (hopen : store.isFull d ps.length (loadPiece x).2 = false)
      (hnext : load.continues d false (loadPiece x).1 (loadPiece x).2
        ((piecesOf (loadPiece x).2 - ps.length) * (loadPiece x).2) = true)
      (hheading : s.heading = (load.push d (loadPiece x).1 (loadPiece x).2).1)
      (hload : s.load = (load.push d (loadPiece x).1 (loadPiece x).2).2)
      (hstore : s.store = store.turned d (load.push d (loadPiece x).1 (loadPiece x).2).1
        ((loadPiece x).1 + (loadPiece x).2))
      (hcount : s.progress.count = ps.length) : Tracks s ps (some x)
  | paired {ps : List ((Word × Int) × (Word × Int))} (hp : s.phase = .paired)
      (hpaired : Span.Paired s.heading s.load s.store (ps.map pairPieces))
      (hcount : s.progress.count = ps.length) : Tracks s ps none

/-- Pairs and perhaps a load among the instructions that were read. Between a load and
    its store there are only stores. -/
structure Among (fed : List (Word × Int)) (ps : List ((Word × Int) × (Word × Int)))
    (last : Option (Word × Int)) : Prop where
  sublist : (flat ps ++ last.toList).Sublist fed
  loads : ∀ p ∈ ps, (unpacked p.1.1).isNarrowLoad = true
  stores : ∀ p ∈ ps, (unpacked p.2.1).isNarrowStore = true
  open_load : ∀ x ∈ last, (unpacked x.1).isNarrowLoad = true
  calm : ∀ p ∈ ps, ∀ z ∈ fed, p.1.2 < z.2 → z.2 < p.2.2 → (unpacked z.1).isStore = true
  open_calm : ∀ x ∈ last, ∀ z ∈ fed, x.2 < z.2 → (unpacked z.1).isStore = true

/-- What the group that is being gathered holds. -/
structure Trace (fed : List (Word × Int)) (s : CopyPairs)
    (ps : List ((Word × Int) × (Word × Int))) (last : Option (Word × Int)) : Prop where
  tracks : Tracks s ps last
  among : Among fed ps last
  pending : s.notes.pending = gatheredAll (flat ps ++ last.toList)

/-- Pairs whose stores were taken to be complete. -/
structure PairsDone (ps : List ((Word × Int) × (Word × Int))) (low start : Int) : Prop where
  spans : ∃ d load store size, Span.Paired d load store (ps.map pairPieces)
    ∧ Fields.IsWidth size
    ∧ store.isFull d ps.length size = true
    ∧ load.leftLow = some low ∧ store.leftLow = some start

/-- What a finished group replaces. -/
structure Finished (fed : List (Word × Int)) (g : Group)
    (ps : List ((Word × Int) × (Word × Int))) (low start : Int) : Prop where
  among : Among fed ps none
  done : PairsDone ps low start
  group : g = fuse low start (gatheredAll (flat ps))

variable {last : Option (Word × Int)} {x : Word × Int} {s : CopyPairs} {w : Word} {id : Int}

theorem flat_concat (ps : List ((Word × Int) × (Word × Int))) (x y : Word × Int) :
    flat (ps ++ [(x, y)]) = flat ps ++ [x] ++ [y] := by
  simp [flat]

theorem Among.read (h : Among fed ps last) (hid : ∀ x ∈ fed, x.2 < id)
    (hstore : last.isSome → (unpacked w).isStore = true) : Among (fed ++ [(w, id)]) ps last where
  sublist := h.sublist.trans (List.sublist_append_left ..)
  loads := h.loads
  stores := h.stores
  open_load := h.open_load
  calm := by
    intro p hp z hz hlt hgt
    rcases List.mem_append.mp hz with hz | hz
    · exact h.calm p hp z hz hlt hgt
    · -- the store of a pair has been read
      have hmem : p.2 ∈ flat ps := List.mem_flatMap.mpr ⟨p, hp, by simp⟩
      have hbefore := hid p.2 (h.sublist.subset (List.mem_append_left _ hmem))
      obtain rfl := List.mem_singleton.mp hz
      omega
  open_calm := by
    intro x hx
    exact List.forall_mem_append.mpr
      ⟨h.open_calm x hx, List.forall_mem_singleton.mpr fun _ => hstore (Option.isSome_of_mem hx)⟩

theorem Among.load (h : Among fed ps none) (hid : ∀ x ∈ fed, x.2 < id)
    (hload : (unpacked w).isNarrowLoad = true) :
    Among (fed ++ [(w, id)]) ps (some (w, id)) := by
  have hread := h.read hid (w := w) nofun
  refine ⟨?_, h.loads, h.stores, ?_, hread.calm, ?_⟩
  · have hsublist := h.sublist.append (List.Sublist.refl [(w, id)])
    simpa using hsublist
  · intro x hx
    exact Option.some.inj hx ▸ hload
  · intro x hx
    cases hx
    refine List.forall_mem_append.mpr ⟨fun z hz hlt => ?_, List.forall_mem_singleton.mpr (by omega)⟩
    have hbefore := hid z hz
    omega

theorem Among.store (h : Among fed ps (some x)) (hid : ∀ x ∈ fed, x.2 < id)
    (hstore : (unpacked w).isNarrowStore = true) :
    Among (fed ++ [(w, id)]) (ps ++ [(x, (w, id))]) none := by
  have hread := h.read hid (w := w) fun _ => Fields.isStore_of_isNarrowStore hstore
  refine ⟨?_, ?_, ?_, nofun, ?_, nofun⟩
  · rw [flat_concat]
    simpa using h.sublist.append (List.Sublist.refl [(w, id)])
  · exact List.forall_mem_append.mpr ⟨h.loads, List.forall_mem_singleton.mpr (h.open_load x rfl)⟩
  · exact List.forall_mem_append.mpr ⟨h.stores, List.forall_mem_singleton.mpr hstore⟩
  · refine List.forall_mem_append.mpr ⟨hread.calm, List.forall_mem_singleton.mpr ?_⟩
    intro z hz hlt _
    exact hread.open_calm x rfl z hz hlt

theorem Among.nothing (fed : List (Word × Int)) : Among fed [] none :=
  ⟨List.nil_sublist _, nofun, nofun, nofun, nofun, nofun⟩

theorem Among.before (h : Among fed ps last) (hid : ∀ x ∈ fed, x.2 < id) :
    ∀ x ∈ flat ps ++ last.toList, x.2 < id :=
  fun x hx => hid x (h.sublist.subset hx)

theorem Tracks.unseen (h : Tracks s ps last) (n : Notes) (size : Option Int) :
    Tracks { s with notes := n, progress := { s.progress with size := size } } ps last := by
  cases h with
  | idle hp => exact .idle hp
  | first hp hheading hload hcount => exact .first hp hheading hload hcount
  | loaded hp hpaired hopen hnext hheading hload hstore hcount =>
    exact .loaded hp hpaired hopen hnext hheading hload hstore hcount
  | paired hp hpaired hcount => exact .paired hp hpaired hcount

theorem Tracks.loaded_of_isSome (h : Tracks s ps last) (hlast : last.isSome) :
    s.phase = .loaded := by
  cases h with
  | idle | paired => cases hlast
  | first hp | loaded hp => exact hp

theorem trace_begun {n : Notes} (hn : n.pending = []) (hid : ∀ x ∈ fed, x.2 < id)
    (hload : (unpacked w).isNarrowLoad = true) :
    Trace (fed ++ [(w, id)]) (begun n w id (unpacked w)) [] (some (w, id)) where
  tracks := .first rfl rfl rfl rfl
  among := (Among.nothing fed).load hid hload
  pending := by
    show (n.keep (.gathered w id)).pending = _
    rw [Notes.keep_pending, hn]
    rfl

theorem Trace.withLoad (h : Trace fed s ps last) (hid : ∀ x ∈ fed, x.2 < id)
    (hp : s.phase = .paired) (hload : (unpacked w).isNarrowLoad = true)
    (hopen : s.full (unpacked w).loadSize = false) (hnext : s.nextLoad (unpacked w) = true) :
    Trace (fed ++ [(w, id)]) (s.withLoad w id (unpacked w)) ps (some (w, id)) := by
  obtain ⟨htracks, hamong, hpending⟩ := h
  cases htracks with
  | idle hp' | first hp' | loaded hp' => rw [hp] at hp'; cases hp'
  | paired _ hpaired hcount =>
    refine ⟨.loaded rfl hpaired ?_ ?_ rfl rfl rfl hcount, hamong.load hid hload, ?_⟩
    · rwa [← hcount]
    · rwa [nextLoad, hopen, hcount] at hnext
    · show (s.notes.keep (.gathered w id)).pending = _
      rw [Notes.keep_pending, hpending, insert_gatheredAll (hamong.before hid)]
      simp

/-- One more store. -/
theorem Trace.withStore (h : Trace fed s ps last) (hid : ∀ x ∈ fed, x.2 < id)
    (hp : s.phase = .loaded) (hstore : (unpacked w).isNarrowStore = true)
    (hnext : s.nextStore (unpacked w) = true) (hfit : s.misjudges (unpacked w) = false) :
    ∃ x, Trace (fed ++ [(w, id)]) (s.withStore w id (unpacked w)) (ps ++ [(x, (w, id))]) none := by
  obtain ⟨htracks, hamong, hpending⟩ := h
  -- what was gathered does not depend on whether this is the first pair
  have hgathered : ∀ {x}, last = some x → Among (fed ++ [(w, id)]) (ps ++ [(x, (w, id))]) none
      ∧ (s.withStore w id (unpacked w)).notes.pending =
        gatheredAll (flat (ps ++ [(x, (w, id))]) ++ Option.toList none) := by
    rintro x rfl
    refine ⟨hamong.store hid hstore, ?_⟩
    show (s.notes.keep (.gathered w id)).pending = _
    rw [Notes.keep_pending, hpending, insert_gatheredAll (hamong.before hid), flat_concat]
    simp
  cases htracks with
  | idle hp' | paired hp' => rw [hp] at hp'; cases hp'
  | @first x _ hheading hload hcount =>
    refine ⟨x, .paired rfl ?_ ?_, (hgathered rfl).1, (hgathered rfl).2⟩
    · show Span.Paired s.heading s.load (if s.heading = .pending then _ else _) _
      rw [if_pos hheading, hheading, hload]
      exact .first (loadPiece x) (storePiece (w, id))
    · show s.progress.count + 1 = _
      rw [hcount]
      rfl
  | @loaded _ x d load store _ hpaired hopen hcontinues hheading hload hstore' hcount =>
    have hdecided : s.heading ≠ .pending := by
      rw [hheading]
      exact load.push_heading_ne d _ _
    refine ⟨x, .paired rfl ?_ ?_, (hgathered rfl).1, (hgathered rfl).2⟩
    · have hfits : s.store.storeFits s.heading ps.length (storePiece (w, id)).1
          (storePiece (w, id)).2 := by
        refine ⟨?_, fun hback => ?_⟩
        · rw [nextStore, hcount, Bool.or_eq_true, beq_iff_eq] at hnext
          exact Span.continues_of_full (hnext.resolve_left hdecided)
        · rw [misjudges, hback, hcount] at hfit
          simpa [storePiece] using hfit
      show Span.Paired s.heading s.load (if s.heading = .pending then _ else _) _
      rw [if_neg hdecided]
      rw [hheading, hstore'] at hfits
      rw [hheading, hload, hstore', List.map_append]
      refine hpaired.next (x := loadPiece x) (y := storePiece (w, id)) ?_ ?_ ?_
      · simpa using hopen
      · simpa using hcontinues
      · simpa using hfits
    · show s.progress.count + 1 = _
      rw [hcount, List.length_append]
      rfl

theorem Trace.finished {size : Int} (h : Trace fed s ps last) (hp : s.phase = .paired)
    (hwidth : Fields.IsWidth size) (hfull : s.full size = true) (hg : s.finished = .ok g) :
    ∃ low start, Finished fed g ps low start := by
  obtain ⟨htracks, hamong, hpending⟩ := h
  cases htracks with
  | idle hp' | first hp' | loaded hp' => rw [hp] at hp'; cases hp'
  | paired _ hpaired hcount =>
    unfold CopyPairs.finished at hg
    split at hg
    · next low start hlow hstart =>
      refine ⟨low, start, hamong, ⟨_, _, _, size, hpaired, hwidth, ?_, hlow, hstart⟩, ?_⟩
      · rwa [← hcount]
      · rw [← Except.ok.inj hg, hpending]
        simp
    · cases hg

theorem Finished.read {start : Int} (h : Finished fed g ps low start) (hid : ∀ x ∈ fed, x.2 < id) :
    Finished (fed ++ [(w, id)]) g ps low start :=
  ⟨h.among.read hid nofun, h.done, h.group⟩

/-- What is being gathered, and what each finished group replaces. -/
structure Traced (fed : List (Word × Int)) (s : CopyPairs) : Prop where
  trace : ∃ ps last, Trace fed s ps last
  finished : ∀ g ∈ s.notes.closed, ∃ ps low start, Finished fed g ps low start

theorem Move.traced (h : Move s w id (unpacked w) t) (hs : s.Sound) (hid : ∀ x ∈ fed, x.2 < id)
    (htraced : Traced fed s) :
    Traced (fed ++ [(w, id)]) t := by
  obtain ⟨⟨ps, last, htrace⟩, hclosed⟩ := htraced
  have hread : ∀ g ∈ s.notes.closed, ∃ ps low start, Finished (fed ++ [(w, id)]) g ps low start := by
    intro g hg
    obtain ⟨ps, low, start, hfinished⟩ := hclosed g hg
    exact ⟨ps, low, start, hfinished.read hid⟩
  -- a finished group joins those that were finished before
  have hjoin : ∀ {size : Int} {g : Group}, s.phase = .paired → Fields.IsWidth size → s.full size = true →
      s.finished = .ok g → ∀ g' ∈ s.notes.closed ++ [g], ∃ ps low start,
        Finished (fed ++ [(w, id)]) g' ps low start := by
    intro size g hp hwidth hfull hg g' hg'
    rcases List.mem_append.mp hg' with hg' | hg'
    · exact hread g' hg'
    · obtain ⟨low, start, hfinished⟩ := htrace.finished hp hwidth hfull hg
      exact List.mem_singleton.mp hg' ▸ ⟨ps, low, start, hfinished.read hid⟩
  have hnothing : ∀ {n : Notes}, n.pending = [] → Trace (fed ++ [(w, id)]) (fresh n) [] none :=
    fun hn => ⟨.idle rfl, .nothing _, hn⟩
  cases h with
  | rest hp =>
    refine ⟨⟨ps, last, htrace.tracks, htrace.among.read hid fun hlast => ?_, htrace.pending⟩, hread⟩
    have hloaded := htrace.tracks.loaded_of_isSome hlast
    rw [hp] at hloaded
    cases hloaded
  | note hp _ hstore =>
    refine ⟨⟨ps, last, htrace.tracks.unseen ..,  htrace.among.read hid fun hlast => ?_,
      htrace.pending⟩, hread⟩
    exact hstore (htrace.tracks.loaded_of_isSome hlast)
  | first hp hload =>
    refine ⟨⟨_, _, trace_begun (hs.pending_iff.mpr hp) hid hload⟩, ?_⟩
    simpa [begun] using hread
  | giveUp =>
    refine ⟨⟨_, _, hnothing (by simp)⟩, ?_⟩
    simpa [fresh] using hread
  | startOver hload =>
    refine ⟨⟨_, _, trace_begun (by simp) hid hload⟩, ?_⟩
    simpa [begun] using hread
  | store hp hstore hnext hfit =>
    obtain ⟨x, hstored⟩ := htrace.withStore hid hp hstore hnext hfit
    refine ⟨⟨_, _, hstored⟩, ?_⟩
    simpa [withStore] using hread
  | load hp hload hopen hnext =>
    refine ⟨⟨_, _, htrace.withLoad hid hp hload hopen hnext⟩, ?_⟩
    simpa [withLoad] using hread
  | finish hp hwidth hfull hg =>
    refine ⟨⟨_, _, hnothing (by simp)⟩, ?_⟩
    simpa [fresh] using hjoin hp hwidth hfull hg
  | finishFirst hp hwidth hfull hg hload =>
    refine ⟨⟨_, _, trace_begun (by simp) hid hload⟩, ?_⟩
    simpa [begun] using hjoin hp hwidth hfull hg

theorem traced_run (hfed : Ascending fed) (h : Runs (readAll read fed) {} () t) : Traced fed t := by
  refine moves.run_induct (P := fun fed s => Ascending fed → Traced fed s) ?_ ?_ hfed.distinct h hfed
  · intro _
    exact ⟨⟨[], none, .idle rfl, .nothing _, rfl⟩, nofun⟩
  · intro fed w id u v _ hsound _ hu hmove hascending
    obtain ⟨⟨ps, last, htrace⟩, hclosed⟩ := hu hascending.init
    exact hmove.traced (hsound.look w id) hascending.last
      ⟨⟨ps, last, htrace.tracks.unseen .., htrace.among, htrace.pending⟩, hclosed⟩

end CopyPairs

/-- A copy of three half words downwards in pairs, and three half words from different
    places in a batch. -/
def twoCopies : List (Word × Int) :=
  [(0x6921040000000000, 0), (0x6b1a040000000000, 1), (0x6921020000000000, 2),
    (0x6b1a020000000000, 3), (0x6921000000000000, 4), (0x6b1a000000000000, 5),
    (0xb700000000000000, 6), (0x6961000000000000, 7), (0x6973020000000000, 8),
    (0x6984040000000000, 9), (0xb700000000000000, 10), (0x6b1a000000000000, 11),
    (0x6b3a020000000000, 12), (0x6b4a040000000000, 13), (0xb700000000000000, 14)]

end BpfLanes.Peephole
