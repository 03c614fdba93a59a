import BpfLanes.Proofs.HexText
import Mathlib.Data.List.TakeWhile
import Mathlib.Data.Nat.Digits.Defs

/-! # What is read from a dump

A line of a dump shows by its form what it contributes (`Contributes`). Bytes are
searched for anywhere on a line, so the search must not stop in the index before them,
and it must take neither fewer nor more bytes than there are.
-/

namespace BpfLanes

/-! ## Searching -/

variable {α : Type} {scan : List Char → Option α} {c : Char} {cs front : List Char} {a : α}

theorem Search.first?_eq_none (h : ∀ x y, cs = x ++ y → scan y = none) :
    first? scan cs = none := by
  induction cs with
  | nil => simp [first?, h [] [] rfl]
  | cons c cs ih =>
    have hcs := ih fun x y hxy => h (c :: x) y (by rw [hxy, List.cons_append])
    simp [first?, h [] (c :: cs) rfl, hcs]

theorem Search.first?_cons (hc : scan (c :: cs) = none) (h : ∃ b, first? scan cs = some (b, a)) :
    ∃ b, first? scan (c :: cs) = some (b, a) := by
  obtain ⟨b, hb⟩ := h
  exact ⟨c :: b, by simp [first?, hc, hb]⟩

theorem Search.first?_append (hfront : ∀ c ∈ front, ∀ cs, scan (c :: cs) = none)
    (h : ∃ b, first? scan cs = some (b, a)) : ∃ b, first? scan (front ++ cs) = some (b, a) := by
  induction front with
  | nil => exact h
  | cons c front ih =>
    exact first?_cons (hfront c List.mem_cons_self _)
      (ih fun d hd => hfront d (List.mem_cons_of_mem c hd))

/-! ## Lines -/

/-- A text and its lines: a line ends at a line feed, at a carriage return, or at both. -/
inductive Lines.Cut : List Char → List (List Char) → Prop where
  | last {line : List Char} (h : ∀ c ∈ line, c ≠ '\n' ∧ c ≠ '\r') : Cut line [line]
  | next {line stop cs : List Char} {lines : List (List Char)}
      (h : ∀ c ∈ line, c ≠ '\n' ∧ c ≠ '\r')
      (hstop : stop = ['\n'] ∨ stop = ['\r', '\n'] ∨ stop = ['\r'] ∧ cs.head? ≠ some '\n')
      (hcs : Cut cs lines) : Cut (line ++ stop ++ cs) (line :: lines)

theorem Lines.splitAt_append {line cs piece : List Char} {pieces : List (List Char)}
    (h : ∀ c ∈ line, c ≠ '\n' ∧ c ≠ '\r') (hcs : splitAt '\n' (unify cs) = piece :: pieces) :
    splitAt '\n' (unify (line ++ cs)) = (line ++ piece) :: pieces := by
  induction line with
  | nil => exact hcs
  | cons c line ih =>
    obtain ⟨hfeed, hreturn⟩ := h c List.mem_cons_self
    rw [List.cons_append, unify, splitAt, ih fun d hd => h d (List.mem_cons_of_mem c hd)]
    · simp [hfeed]
    all_goals simp [hreturn]

theorem Lines.Cut.ofText {text : String} {lines : List (List Char)} (h : Cut text.toList lines) :
    ofText text = lines := by
  unfold Lines.ofText
  generalize text.toList = cs at h
  induction h with
  | @last line h =>
    have hline := splitAt_append h (rfl : splitAt '\n' (unify []) = [[]])
    simpa using hline
  | @next line stop cs lines h hstop hcs ih =>
    have hfeed : splitAt '\n' (unify (stop ++ cs)) = [] :: splitAt '\n' (unify cs) := by
      rcases hstop with rfl | rfl | ⟨rfl, hne⟩
      · simp [unify, splitAt]
      · simp [unify, splitAt]
      · rw [List.singleton_append, unify]
        · simp [splitAt]
        · rintro cs' rfl
          exact hne rfl
    rw [List.append_assoc, splitAt_append h hfeed, ih, List.append_nil]

namespace Dump

/-! ## The form of a line -/

/-- Bytes written as two hexadecimal digits each, with single blanks between them. -/
inductive Written : List Nat → List Char → Prop where
  | last {h l : Char} {x y : Nat} (hh : hexDigit? h = some x) (hl : hexDigit? l = some y) :
      Written [16 * x + y] [h, l]
  | more {h l : Char} {x y : Nat} {bs : List Nat} {cs : List Char} (hh : hexDigit? h = some x)
      (hl : hexDigit? l = some y) (hcs : Written bs cs) :
      Written ((16 * x + y) :: bs) (h :: l :: ' ' :: cs)

/-- A text that starts with a label, a word in angle brackets. -/
def Labelled (cs : List Char) : Prop :=
  ∃ word rest, word ≠ [] ∧ (∀ c ∈ word, WordChar.isWord c = true) ∧
    cs = '<' :: (word ++ '>' :: rest)

/-- A text and the part of it before its first label. -/
inductive UpToLabel : List Char → List Char → Prop where
  | nil : UpToLabel [] []
  | label {cs : List Char} (h : Labelled cs) : UpToLabel cs []
  | char {c : Char} {cs shown : List Char} (h : ¬ Labelled (c :: cs)) (hcs : UpToLabel cs shown) :
      UpToLabel (c :: cs) (c :: shown)

/-- A text and its mnemonic: no leading white space, and nothing from the first label on. -/
def Shown (tail shown : List Char) : Prop :=
  ∃ blanks cs, tail = blanks ++ cs ∧ (∀ c ∈ blanks, Lines.isBlank c = true) ∧
    (∀ c ∈ cs.head?, Lines.isBlank c = false) ∧ UpToLabel cs shown

/-- What may follow the bytes: nothing, or a tab, a blank and a tab, or at least two blanks,
    and then the mnemonic. -/
def Parted (tail : List Char) : Prop :=
  tail = [] ∨ ∃ gap text, tail = gap ++ text ∧
    (gap = ['\t'] ∨ gap = [' ', '\t'] ∨ ∃ n, gap = List.replicate (n + 2) ' ')

/-- A line and the instructions that it contributes. -/
inductive Contributes : List Char → List (Word × String) → Prop where
  | comment {line : List Char} (h : ';' ∈ line) : Contributes line []
  | other {line : List Char} (h : ';' ∉ line)
      (hbytes : ∀ x cs y bs, line = x ++ cs ++ y → Written bs cs → bs.length ≠ 8) :
      Contributes line []
  /-- an index, eight or sixteen bytes and a mnemonic -/
  | instruction {blanks index space cs tail shown : List Char} {bs : List Nat}
      (h : ';' ∉ blanks ++ (index ++ ':' :: (space ++ (cs ++ tail))))
      (hblanks : ∀ c ∈ blanks, c = ' ') (hindex : index ≠ [] ∧ ∀ c ∈ index, c.isDigit = true)
      (hspace : ∀ c ∈ space, Lines.isBlank c = true) (hbytes : Written bs cs)
      (hlength : bs.length = 8 ∨ bs.length = 16) (htail : Parted tail) (hshown : Shown tail shown) :
      Contributes (blanks ++ (index ++ ':' :: (space ++ (cs ++ tail))))
        (((Nat.ofDigits 256 (bs.take 8).reverse : Nat), String.ofList shown) ::
          if bs.length = 16 then [(0, "NOP")] else [])

variable {n : Nat} {bs : List Nat} {rest tail shown line : List Char}

/-! ## Bytes -/

theorem Written.bytes? (h : Written bs cs) (hlength : bs.length = n + 1) (rest : List Char) :
    Dump.bytes? n (cs ++ rest) = some (bs, rest) := by
  induction h generalizing n with
  | last hh hl =>
    obtain rfl : n = 0 := by simpa using hlength
    simp [Dump.bytes?, byte?, hh, hl]
  | more hh hl hcs ih =>
    cases n with
    | zero => cases hcs <;> simp at hlength
    | succ n => simp [Dump.bytes?, byte?, hh, hl, ih (by simpa using hlength)]

theorem Written.bytes?_of_lt (h : Written bs cs) (hlength : n + 1 < bs.length) (rest : List Char) :
    ∃ cs', Dump.bytes? n (cs ++ rest) = some (bs.take (n + 1), ' ' :: (cs' ++ rest)) ∧
      Written (bs.drop (n + 1)) cs' := by
  induction n generalizing bs cs with
  | zero =>
    cases h with
    | last => simp at hlength
    | @more _ _ _ _ _ cs' hh hl hcs => exact ⟨cs', by simp [Dump.bytes?, byte?, hh, hl], hcs⟩
  | succ n ih =>
    cases h with
    | last => simp at hlength
    | more hh hl hcs =>
      obtain ⟨cs', hbytes, hcs'⟩ := ih hcs (by simpa using hlength)
      exact ⟨cs', by simp [Dump.bytes?, byte?, hh, hl, hbytes], hcs'⟩

theorem written_of_bytes? (h : Dump.bytes? n cs = some (bs, rest)) :
    ∃ cs', Written bs cs' ∧ bs.length = n + 1 ∧ cs = cs' ++ rest := by
  induction n generalizing cs bs with
  | zero =>
    match cs with
    | [] | [_] => simp [Dump.bytes?, byte?] at h
    | a :: b :: cs =>
      simp only [Dump.bytes?, byte?, Option.map_eq_some_iff, Option.bind_eq_bind,
        Option.bind_eq_some_iff, Option.pure_def, Option.some.injEq] at h
      obtain ⟨_, ⟨x, hx, y, hy, rfl⟩, heq⟩ := h
      cases heq
      exact ⟨[a, b], .last hx hy, rfl, rfl⟩
  | succ n ih =>
    match cs with
    | [] | [_] => simp [Dump.bytes?, byte?] at h
    | a :: b :: cs =>
      simp only [Dump.bytes?, byte?, Option.bind_eq_bind, Option.bind_eq_some_iff,
        Option.pure_def, Option.some.injEq] at h
      obtain ⟨_, ⟨x, hx, y, hy, rfl⟩, hcs⟩ := h
      split at hcs
      · next more heq =>
        obtain ⟨⟨bs', rest'⟩, hmore, heq'⟩ := Option.bind_eq_some_iff.mp hcs
        cases heq'
        cases heq
        obtain ⟨cs', hw, hlength, rfl⟩ := ih hmore
        exact ⟨a :: b :: ' ' :: cs', .more hx hy hw, by simp [hlength], rfl⟩
      · cases hcs

theorem Written.starts (h : Written bs cs) : ∃ a b rest, cs = a :: b :: rest ∧
    hexDigit? a ≠ none ∧ hexDigit? b ≠ none ∧ (bs.length ≠ 1 → ∃ more, rest = ' ' :: more) := by
  cases h with
  | last hh hl => exact ⟨_, _, _, rfl, by simp [hh], by simp [hl], fun h => absurd rfl h⟩
  | more hh hl => exact ⟨_, _, _, rfl, by simp [hh], by simp [hl], fun _ => ⟨_, rfl⟩⟩

theorem bytes?_of_not_digit (hc : hexDigit? c = none) (n : Nat) (cs : List Char) :
    Dump.bytes? n (c :: cs) = none := by
  by_contra h
  obtain ⟨⟨bs, rest⟩, hbytes⟩ := Option.ne_none_iff_exists'.mp h
  obtain ⟨cs', hw, -, heq⟩ := written_of_bytes? hbytes
  obtain ⟨a, b, more, rfl, ha, -⟩ := hw.starts
  cases heq
  exact ha hc

theorem encoding?_of_not_digit (hc : hexDigit? c = none) (cs : List Char) :
    encoding? (c :: cs) = none := by
  simp [encoding?, bytes?_of_not_digit hc]

theorem first?_index {index : List Char} {a : List Nat × Bool × List Char}
    (hindex : ∀ c ∈ index, c.isDigit = true)
    (h : ∃ b, Search.first? encoding? (':' :: cs) = some (b, a)) :
    ∃ b, Search.first? encoding? (index ++ ':' :: cs) = some (b, a) := by
  induction index with
  | nil => exact h
  | cons d index ih =>
    have hrest := fun c hc => hindex c (List.mem_cons_of_mem d hc)
    refine Search.first?_cons ?_ (ih hrest)
    cases hbytes : Dump.bytes? 7 (d :: (index ++ ':' :: cs)) with
    | none => simp [encoding?, hbytes]
    | some r =>
      obtain ⟨cs', hw, hlength, heq⟩ := written_of_bytes? hbytes
      obtain ⟨x, y, more, rfl, -, hy, hblank⟩ := hw.starts
      obtain ⟨more, rfl⟩ := hblank (by omega)
      -- the second character is the colon, or the third is no blank
      match index with
      | [] =>
        cases heq
        exact absurd rfl hy
      | [_] => simp at heq
      | _ :: e :: _ =>
        simp only [List.cons_append, List.cons.injEq] at heq
        exact absurd (hrest e (by simp)) (by rw [heq.2.2.1]; decide)

theorem wordOfBytes_eq : wordOfBytes bs = (Nat.ofDigits 256 bs.reverse : Nat) := by
  rw [wordOfBytes, Nat.ofDigits_eq_foldr, List.foldr_reverse]
  simp [Nat.add_comm]

/-! ## Mnemonics -/

theorem label?_eq_some_iff : label? cs = some () ↔ Labelled cs := by
  constructor
  · intro h
    unfold label? at h
    split at h
    · next rest =>
      split at h
      · next d word more htake hdrop =>
        refine ⟨d :: word, more, by simp, fun e he => ?_, ?_⟩
        · rw [← htake] at he
          exact List.mem_takeWhile_imp he
        · rw [← htake, ← hdrop, List.takeWhile_append_dropWhile]
      · cases h
    · cases h
  · rintro ⟨word, rest, hne, hword, rfl⟩
    have hclose : WordChar.isWord '>' = false := by decide +kernel
    simp only [label?]
    rw [List.takeWhile_append_of_pos hword, List.dropWhile_append_of_pos hword]
    cases word with
    | nil => exact absurd rfl hne
    | cons d word => simp [hclose]

theorem upToLabel_iff : UpToLabel cs shown ↔
    shown = ((Search.first? label? cs).map Prod.fst).getD cs := by
  induction cs generalizing shown with
  | nil =>
    constructor
    · rintro (_ | _)
      all_goals rfl
    · rintro rfl
      exact .nil
  | cons c cs ih =>
    by_cases h : Labelled (c :: cs)
    · have hlabel := label?_eq_some_iff.mpr h
      simp only [Search.first?, hlabel, Option.map_some, Option.getD_some]
      constructor
      · rintro (_ | _ | hnot)
        · rfl
        · exact absurd h hnot
      · rintro rfl
        exact .label h
    · have hlabel : label? (c :: cs) = none :=
        Option.eq_none_iff_forall_ne_some.mpr fun _ hs => h (label?_eq_some_iff.mp hs)
      have hfirst : ((Search.first? label? (c :: cs)).map Prod.fst).getD (c :: cs)
          = c :: ((Search.first? label? cs).map Prod.fst).getD cs := by
        rw [Search.first?, hlabel]
        cases Search.first? label? cs <;> rfl
      rw [hfirst]
      constructor
      · rintro (_ | hyes | ⟨_, hcs⟩)
        · exact absurd hyes h
        · rw [ih.mp hcs]
      · rintro rfl
        exact .char h (ih.mpr rfl)

theorem mnemonic_eq (h : Shown tail shown) : mnemonic tail = String.ofList shown := by
  obtain ⟨blanks, cs, rfl, hblanks, hcs, h⟩ := h
  have htrim : Lines.trimStart (blanks ++ cs) = cs := by
    unfold Lines.trimStart
    rw [List.dropWhile_append_of_pos hblanks]
    cases cs with
    | nil => rfl
    | cons c cs => simp [hcs c rfl]
  simp only [mnemonic, htrim, upToLabel_iff.mp h]
  cases Search.first? label? cs <;> rfl

theorem exists_shown (tail : List Char) : ∃ shown, Shown tail shown := by
  refine ⟨_, tail.takeWhile Lines.isBlank, tail.dropWhile Lines.isBlank,
    List.takeWhile_append_dropWhile.symm, fun c => List.mem_takeWhile_imp, fun c hc => ?_,
    upToLabel_iff.mpr rfl⟩
  have := List.head?_dropWhile_not Lines.isBlank tail
  rw [Option.mem_def.mp hc] at this
  simpa using this

/-! ## Lines of a dump -/

theorem Written.encoding? (h : Written bs cs) (hlength : bs.length = 8 ∨ bs.length = 16)
    (htail : Parted tail) :
    Dump.encoding? (cs ++ tail) = some (bs.take 8, decide (bs.length = 16), tail) := by
  rcases hlength with hlength | hlength
  · have hbytes := h.bytes? (n := 7) hlength tail
    have htake : bs.take 8 = bs := List.take_of_length_le hlength.le
    rw [htake, hlength]
    unfold Dump.encoding?
    rw [hbytes]
    -- no byte follows a single blank
    rcases htail with rfl | ⟨gap, text, rfl, rfl | rfl | ⟨n, rfl⟩⟩
    · rfl
    · rfl
    · have hnone := bytes?_of_not_digit (c := '\t') (by decide) 7 text
      simp [hnone]
    · have hnone := bytes?_of_not_digit (c := ' ') (by decide) 7
      simp [List.replicate_succ, hnone]
  · obtain ⟨cs', hfirst, hw⟩ := h.bytes?_of_lt (n := 7) (by omega) tail
    have hmore := hw.bytes? (n := 7) (by simp [hlength]) tail
    unfold Dump.encoding?
    rw [hfirst, hlength]
    simp [hmore]

theorem Contributes.readLine {out : List (Word × String)} (h : Contributes line out) :
    Dump.readLine line = out := by
  unfold Dump.readLine
  cases h with
  | comment h => simp [h]
  | other h hbytes =>
    have hnone : Search.first? Dump.encoding? line = none := by
      apply Search.first?_eq_none
      rintro x y rfl
      cases hy : Dump.bytes? 7 y with
      | none => simp [Dump.encoding?, hy]
      | some r =>
        obtain ⟨bs, rest⟩ := r
        obtain ⟨cs, hw, hlength, rfl⟩ := written_of_bytes? hy
        exact absurd hlength (hbytes x cs rest bs (by simp) hw)
    simp [h, hnone]
  | @instruction blanks index space cs tail shown bs h hblanks hindex hspace hw hlength htail hshown =>
    have hstop : Search.first? Dump.encoding? (cs ++ tail)
        = some ([], bs.take 8, decide (bs.length = 16), tail) := by
      have henc := hw.encoding? hlength htail
      cases hcs : cs ++ tail <;> rw [hcs] at henc <;> simp [Search.first?, henc]
    have hdigit : ∀ c ∈ space, hexDigit? c = none := by
      intro c hc
      by_contra hhex
      have hblank := (show IsHex c from Option.isSome_iff_ne_none.mpr hhex).not_blank
      rw [hspace c hc] at hblank
      cases hblank
    -- what stands before the bytes is skipped
    have hskip : ∀ c ∈ blanks, ∀ cs, encoding? (c :: cs) = none :=
      fun c hc => encoding?_of_not_digit (by rw [hblanks c hc]; decide)
    obtain ⟨_, hfound⟩ := Search.first?_append hskip <|
      first?_index hindex.2 <| Search.first?_cons (encoding?_of_not_digit (by decide) _) <|
      Search.first?_append (fun c hc => encoding?_of_not_digit (hdigit c hc)) ⟨_, hstop⟩
    rw [if_neg (by simpa using h), hfound]
    simp [wordOfBytes_eq, mnemonic_eq hshown, Word.nop]

/-- A dump is read line by line, and each line contributes what its form says. -/
theorem dump_read_exact {text : String} {lines : List (List Char)}
    {parts : List (List (Word × String))} (hcut : Lines.Cut text.toList lines)
    (h : List.Forall₂ Contributes lines parts) :
    (Dump.read text).unzip = parts.flatten.unzip ∧
      (Dump.read text).unzip.1.length = (Dump.read text).unzip.2.length ∧
      ∀ tail, ∃ shown, Shown tail shown := by
  have hread : Dump.read text = parts.flatten := by
    unfold Dump.read
    rw [hcut.ofText]
    clear hcut
    induction h with
    | nil => rfl
    | cons hline _ ih => rw [List.flatMap_cons, hline.readLine, ih, List.flatten_cons]
  exact ⟨by rw [hread], by simp, exists_shown⟩

/-- A dump of one wide load. -/
def labelledLoad : String :=
  "; start\r\n 7:\t18 01 00 00 0A 00 00 00 00 00 00 00 00 00 00 00  r1 = 10 <map>\n"

theorem dump_read_exact_labelledLoad :
    ∃ lines parts, Lines.Cut labelledLoad.toList lines ∧ List.Forall₂ Contributes lines parts ∧
      (Dump.read labelledLoad).unzip = ([0x180100000a000000, 0], ["r1 = 10 ", "NOP"]) := by
  obtain ⟨bytes, hbytes⟩ :
      ∃ cs, cs = "18 01 00 00 0A 00 00 00 00 00 00 00 00 00 00 00".toList := ⟨_, rfl⟩
  obtain ⟨text, htext⟩ : ∃ cs, cs = "r1 = 10 <map>".toList := ⟨_, rfl⟩
  obtain ⟨line, hline⟩ :
      ∃ line, line = [' '] ++ (['7'] ++ ':' :: (['\t'] ++ (bytes ++ ([' ', ' '] ++ text)))) := ⟨_, rfl⟩
  have hlines : labelledLoad.toList = "; start".toList ++ ['\r', '\n'] ++ (line ++ ['\n'] ++ []) := by
    rw [hline, hbytes, htext]
    decide +kernel
  have hcut : Lines.Cut labelledLoad.toList ["; start".toList, line, []] := by
    have hplain : ∀ cs : List Char, cs.all (fun c => c != '\n' && c != '\r') = true →
        ∀ c ∈ cs, c ≠ '\n' ∧ c ≠ '\r' := fun cs h c hc => by simpa using List.all_eq_true.mp h c hc
    rw [hlines]
    refine .next (hplain _ (by decide +kernel)) (by simp) (.next (hplain _ ?_) (by simp) (.last nofun))
    rw [hline, hbytes, htext]
    decide +kernel
  have hw : Written [0x18, 1, 0, 0, 10, 0, 0, 0, 0, 0, 0, 0, 0, 0, 0, 0] bytes := by
    have hread : Dump.bytes? 15 bytes
        = some ([0x18, 1, 0, 0, 10, 0, 0, 0, 0, 0, 0, 0, 0, 0, 0, 0], []) := by
      rw [hbytes]
      decide +kernel
    obtain ⟨cs, hw, -, heq⟩ := written_of_bytes? hread
    rwa [heq, List.append_nil]
  have hshown : Shown ([' ', ' '] ++ text) "r1 = 10 ".toList := by
    refine ⟨[' ', ' '], text, rfl, by simp [Lines.isBlank], ?_, ?_⟩
    · rw [htext, show "r1 = 10 <map>".toList.head? = some 'r' by decide +kernel]
      rintro c ⟨⟩
      decide
    · rw [upToLabel_iff, htext]
      decide +kernel
  have hcode : ';' ∉ line := by
    rw [hline, hbytes, htext]
    decide +kernel
  rw [hline] at hcode
  have hload := Contributes.instruction hcode (by simp) (by simp) (by simp [Lines.isBlank]) hw (by simp)
    (Or.inr ⟨_, _, rfl, Or.inr (Or.inr ⟨0, rfl⟩)⟩) hshown
  rw [← hline] at hload
  have hblank : Contributes [] [] :=
    .other (by decide) fun x cs y bs h hw => by cases hw <;> simp at h
  have hstart : Contributes "; start".toList [] := .comment (by decide +kernel)
  have hparts := List.Forall₂.cons hstart (.cons hload (.cons hblank .nil))
  exact ⟨_, _, hcut, hparts, (dump_read_exact hcut hparts).1.trans (by decide +kernel)⟩

end Dump
end BpfLanes
