import LocOS.Elf
import Mathlib.Data.List.TakeWhile

/-!
# Passes

The two reading passes of `load_program_from_elf` on any text file. The first
counts the word lines after the first `.text`; the second stores those after
the first line with a dot, as many as the header asks for. The sizes of the
two segments come from the declared addresses, whatever words there are.
-/

namespace LocOS

/-! ## Kinds of lines -/

/-- The code starts behind such a line. -/
def isText (line : List Char) : Bool := isDirective textDirective line

/-- The data are declared on such a line. -/
def isData (line : List Char) : Bool := isDirective dataDirective line

/-- The second pass takes such a line for a directive. -/
def isDot (line : List Char) : Bool := line.head? = some '.'

/-- A line that holds a word, in either pass. -/
def isWord (line : List Char) : Bool :=
  !isDot line && (line.head? ≠ some '\n' && (scanWord line).isSome)

/-- The lines before the first `.text`, and those behind it. -/
def beforeText (lines : List (List Char)) : List (List Char) := lines.takeWhile (!isText ·)

/-- See `beforeText`. -/
def afterText (lines : List (List Char)) : List (List Char) := (lines.dropWhile (!isText ·)).tail

/-- The words behind the first `.text`. -/
def textWords (lines : List (List Char)) : Nat := (afterText lines).countP isWord

/-- The words between the first line with a dot and the first `.text`. -/
def earlyWords (lines : List (List Char)) : Nat :=
  ((beforeText lines).dropWhile (!isDot ·)).countP isWord

/-- The last address a directive declares. -/
def declaredAddress (directive : List Char) (lines : List (List Char)) : Word :=
  ((lines.filter (isDirective directive)).filterMap
    fun line => scanWord (line.drop 5)).getLast?.getD 0

theorem isDirective_head {directive line : List Char} {c : Char} (hc : directive.head? = some c)
    (h : isDirective directive line = true) : line.head? = some c := by
  have htake : line.take 5 = directive := of_decide_eq_true h
  rw [← htake, List.head?_take] at hc
  simpa using hc

theorem isDot_of_isText {line : List Char} (h : isText line = true) : isDot line = true :=
  decide_eq_true (isDirective_head rfl h)

theorem isWord_of_isDot {line : List Char} (h : isDot line = true) : isWord line = false := by
  simp [isWord, h]

theorem split_text {lines : List (List Char)} (h : lines.any isText = true) :
    ∃ t, isText t = true ∧ lines = beforeText lines ++ t :: afterText lines ∧
      ∀ line ∈ beforeText lines, isText line = false := by
  induction lines with
  | nil => cases h
  | cons line lines ih =>
      cases htext : isText line with
      | true =>
          exact ⟨line, htext, by simp [beforeText, afterText, htext], by simp [beforeText, htext]⟩
      | false =>
          rw [List.any_cons, htext, Bool.false_or] at h
          obtain ⟨t, ht, hsplit, hbefore⟩ := ih h
          have hbeforeText : beforeText (line :: lines) = line :: beforeText lines := by
            simp [beforeText, htext]
          have hafterText : afterText (line :: lines) = afterText lines := by
            simp [afterText, htext]
          rw [hbeforeText, hafterText]
          refine ⟨t, ht, by rw [List.cons_append, ← hsplit], ?_⟩
          intro l hl
          rcases List.mem_cons.mp hl with rfl | hl
          · exact htext
          · exact hbefore l hl

/-! ## The first pass -/

theorem firstPassLine_foundText (st : FirstPass) (line : List Char) :
    (firstPassLine st line).foundText = (st.foundText || isText line) := by
  unfold firstPassLine isText
  split
  · rename_i htext
    simp [htext]
  · rename_i htext
    have hfalse : isDirective textDirective line = false := by simpa using htext
    rw [hfalse, Bool.or_false]
    split
    · rfl
    · split
      · split <;> rfl
      · rfl

/-- One line counts when it is a word behind a `.text`. -/
theorem firstPassLine_totalWords (st : FirstPass) (line : List Char) :
    (firstPassLine st line).totalWords =
      if st.foundText ∧ isWord line then st.totalWords + 1 else st.totalWords := by
  unfold firstPassLine
  split
  · rename_i htext
    rw [if_neg]
    rintro ⟨_, hword⟩
    rw [isWord_of_isDot (isDot_of_isText htext)] at hword
    cases hword
  · split
    · rename_i hdata
      rw [if_neg]
      rintro ⟨_, hword⟩
      rw [isWord_of_isDot (decide_eq_true (isDirective_head rfl hdata))] at hword
      cases hword
    · by_cases hcount : st.foundText = true ∧ line.head? ≠ some '.' ∧ line.head? ≠ some '\n'
      · rw [if_pos hcount]
        cases hscan : (scanWord line).isSome with
        | true => rw [if_pos rfl, if_pos ⟨hcount.1, by simp [isWord, isDot, hcount.2, hscan]⟩]
        | false => rw [if_neg (by simp), if_neg (by simp [isWord, hscan])]
      · rw [if_neg hcount, if_neg]
        rintro ⟨hfound, hword⟩
        simp only [isWord, isDot, Bool.and_eq_true, Bool.not_eq_true', decide_eq_false_iff_not,
          decide_eq_true_eq] at hword
        exact hcount ⟨hfound, hword.1, hword.2.1⟩

/-- The lines the first pass counts. -/
def countedAt (lines : List (List Char)) : List Nat :=
  Loop.changes firstPassLine FirstPass.totalWords 0 .start lines

/-- Behind the first `.text` the pass counts every word line. -/
theorem changes_firstPass {st : FirstPass} (hfound : st.foundText = true) (i : Nat)
    (lines : List (List Char)) :
    Loop.changes firstPassLine FirstPass.totalWords i st lines = lines.findIdxs isWord i := by
  induction lines generalizing i st with
  | nil => rfl
  | cons line lines ih =>
      have hnext : (firstPassLine st line).foundText = true := by
        rw [firstPassLine_foundText, hfound]
        rfl
      have htotal := firstPassLine_totalWords st line
      rw [Loop.changes, List.findIdxs_cons, ih hnext]
      by_cases hword : isWord line = true
      · rw [if_pos ⟨hfound, hword⟩] at htotal
        rw [htotal, if_neg (by simp), if_pos hword]
      · rw [if_neg fun h => hword h.2] at htotal
        rw [if_pos htotal, if_neg hword]

theorem countedAt_eq {lines : List (List Char)} (h : lines.any isText = true) :
    countedAt lines = (afterText lines).findIdxs isWord ((beforeText lines).length + 1) := by
  obtain ⟨t, ht, hsplit, hbefore⟩ := split_text h
  have hstay : ∀ st line, isText line = false → st.foundText = false →
      (firstPassLine st line).foundText = false ∧
        (firstPassLine st line).totalWords = st.totalWords := by
    intro st line hline hst
    rw [firstPassLine_foundText, firstPassLine_totalWords, hst, hline]
    simp
  obtain ⟨st, hst, hskip⟩ := Loop.changes_skip firstPassLine FirstPass.totalWords
    (s := .start) (d := t) (fun st => st.foundText = false) rfl
    (fun line hline st => hstay st line (hbefore line hline))
    (by
      intro st hst
      rw [firstPassLine_totalWords, hst]
      simp) 0 (afterText lines)
  have hfound : (firstPassLine st t).foundText = true := by
    rw [firstPassLine_foundText, ht, Bool.or_true]
  rw [countedAt]
  conv_lhs => rw [hsplit]
  rw [hskip, changes_firstPass hfound, Nat.zero_add]

/-- Each line counted adds one, in 32 bits. -/
theorem totalWords_foldl (i : Nat) (st : FirstPass) (lines : List (List Char)) :
    (lines.foldl firstPassLine st).totalWords = st.totalWords +
      BitVec.ofNat 32 (Loop.changes firstPassLine FirstPass.totalWords i st lines).length := by
  induction lines generalizing i st with
  | nil => simp [Loop.changes]
  | cons line lines ih =>
      rw [List.foldl_cons, ih (i + 1), Loop.changes, firstPassLine_totalWords]
      by_cases hword : st.foundText = true ∧ isWord line = true
      · rw [if_pos hword, if_neg (by simp), List.length_cons, BitVec.ofNat_add, BitVec.add_assoc,
          BitVec.add_comm 1]
        rfl
      · rw [if_neg hword, if_pos rfl]

/-- The whole first pass. -/
def firstPass (lines : List (List Char)) : FirstPass := lines.foldl firstPassLine .start

theorem firstPass_totalWords {lines : List (List Char)} (h : lines.any isText = true) :
    (firstPass lines).totalWords.toNat = textWords lines % 2 ^ 32 := by
  have htotal := totalWords_foldl 0 .start lines
  rw [← countedAt, countedAt_eq h, List.length_findIdxs] at htotal
  rw [firstPass, htotal, textWords, show FirstPass.start.totalWords = 0#32 from rfl,
    BitVec.zero_add, BitVec.toNat_ofNat]

theorem foundText_foldl (st : FirstPass) (lines : List (List Char)) :
    (lines.foldl firstPassLine st).foundText = (st.foundText || lines.any isText) := by
  induction lines generalizing st with
  | nil => simp
  | cons line lines ih =>
      rw [List.foldl_cons, ih, firstPassLine_foundText, List.any_cons, Bool.or_assoc]

theorem firstPass_foundText (lines : List (List Char)) :
    (firstPass lines).foundText = lines.any isText := by
  rw [firstPass, foundText_foldl]
  rfl

theorem firstPassLine_textAddr (st : FirstPass) (line : List Char) :
    (firstPassLine st line).textAddr =
      if isText line then (scanWord (line.drop 5)).getD st.textAddr else st.textAddr := by
  unfold firstPassLine isText
  split
  · rfl
  · split
    · rfl
    · split
      · split <;> rfl
      · rfl

/-- No line is both directives. -/
theorem isText_of_isData {line : List Char} (h : isData line = true) : isText line = false := by
  have htake : line.take 5 = dataDirective := of_decide_eq_true h
  refine decide_eq_false ?_
  rw [htake]
  decide

theorem firstPassLine_data (st : FirstPass) (line : List Char) :
    (firstPassLine st line).dataAddr =
        (if isData line then (scanWord (line.drop 5)).getD st.dataAddr else st.dataAddr) ∧
      (firstPassLine st line).foundData = (st.foundData || isData line) := by
  cases hdata : isData line with
  | true =>
      have htext : isDirective textDirective line = false := isText_of_isData hdata
      have hline : isDirective dataDirective line = true := hdata
      simp [firstPassLine, htext, hline]
  | false =>
      have hline : isDirective dataDirective line = false := hdata
      rw [Bool.or_false, if_neg (by simp)]
      unfold firstPassLine
      split
      · exact ⟨rfl, rfl⟩
      · rw [hline, if_neg (by simp)]
        split
        · split <;> exact ⟨rfl, rfl⟩
        · exact ⟨rfl, rfl⟩

/-- The addresses are the last ones declared. -/
theorem firstPass_addresses (lines : List (List Char)) :
    (firstPass lines).textAddr = declaredAddress textDirective lines ∧
      (firstPass lines).dataAddr = declaredAddress dataDirective lines :=
  ⟨Loop.foldl_last FirstPass.textAddr isText _ firstPassLine_textAddr lines .start,
    Loop.foldl_last FirstPass.dataAddr isData _ (fun st line => (firstPassLine_data st line).1)
      lines .start⟩

theorem firstPass_foundData (lines : List (List Char)) :
    (firstPass lines).foundData = lines.any isData := by
  have hall : ∀ st : FirstPass, (lines.foldl firstPassLine st).foundData =
      (st.foundData || lines.any isData) := by
    induction lines with
    | nil => simp
    | cons line lines ih =>
        intro st
        rw [List.foldl_cons, ih, (firstPassLine_data st line).2, List.any_cons, Bool.or_assoc]
  exact hall .start

/-! ## The second pass -/

/-- The word a line holds. -/
def lineWord (line : List Char) : Word := (scanWord line).getD 0

theorem secondPassLine_inSections (totalSize : Word) (st : SecondPass) (line : List Char) :
    (secondPassLine totalSize st line).inSections = (st.inSections || isDot line) := by
  unfold secondPassLine
  split
  · rename_i hdot
    simp [isDot, hdot]
  · rename_i hdot
    rw [show isDot line = false from decide_eq_false hdot, Bool.or_false]
    split
    · split
      · split <;> rfl
      · rfl
    · rfl

/-- A word line in the sections is stored while there is room. -/
theorem secondPassLine_fullProgram (totalSize : Word) (st : SecondPass) (line : List Char) :
    (secondPassLine totalSize st line).fullProgram =
      if (st.inSections ∧ isWord line) ∧ st.fullProgram.length < totalSize.toNat then
        st.fullProgram ++ [lineWord line]
      else st.fullProgram := by
  unfold secondPassLine
  split
  · rename_i hdot
    rw [if_neg]
    rintro ⟨⟨_, hword⟩, _⟩
    rw [isWord_of_isDot (decide_eq_true hdot)] at hword
    cases hword
  · rename_i hdot
    by_cases hread : st.inSections = true ∧ line.head? ≠ some '\n'
    · rw [if_pos hread]
      cases hscan : scanWord line with
      | none => rw [if_neg (by simp [isWord, hscan])]
      | some w =>
          have hword : isWord line = true := by
            simp [isWord, isDot, hdot, hread.2, hscan]
          dsimp only
          by_cases hroom : st.fullProgram.length < totalSize.toNat
          · rw [if_pos hroom, if_pos ⟨⟨hread.1, hword⟩, hroom⟩, lineWord, hscan]
            rfl
          · rw [if_neg hroom, if_neg fun h => hroom h.2]
    · rw [if_neg hread, if_neg]
      rintro ⟨⟨hin, hword⟩, _⟩
      simp only [isWord, Bool.and_eq_true, decide_eq_true_eq] at hword
      exact hread ⟨hin, hword.2.1⟩

/-- The lines the second pass stores. -/
def storedAt (totalSize : Word) (lines : List (List Char)) : List Nat :=
  Loop.changes (secondPassLine totalSize) (fun st => st.fullProgram.length) 0 ⟨[], false⟩ lines

/-- In the sections the pass stores every word line while there is room. -/
theorem changes_secondPass {totalSize : Word} {st : SecondPass} (hin : st.inSections = true)
    (i : Nat) (lines : List (List Char)) :
    Loop.changes (secondPassLine totalSize) (fun st => st.fullProgram.length) i st lines =
      (lines.findIdxs isWord i).take (totalSize.toNat - st.fullProgram.length) := by
  induction lines generalizing i st with
  | nil => simp [Loop.changes]
  | cons line lines ih =>
      have hnext : (secondPassLine totalSize st line).inSections = true := by
        rw [secondPassLine_inSections, hin]
        rfl
      have hfull := secondPassLine_fullProgram totalSize st line
      rw [Loop.changes, List.findIdxs_cons, ih hnext]
      by_cases hword : isWord line = true
      · rw [if_pos hword]
        by_cases hroom : st.fullProgram.length < totalSize.toNat
        · rw [if_pos ⟨⟨hin, hword⟩, hroom⟩] at hfull
          obtain ⟨n, hn⟩ : ∃ n, totalSize.toNat - st.fullProgram.length = n + 1 :=
            ⟨totalSize.toNat - st.fullProgram.length - 1, by omega⟩
          rw [hfull, List.length_append, List.length_singleton, if_neg (by omega), hn,
            List.take_succ_cons, show totalSize.toNat - (st.fullProgram.length + 1) = n by omega]
        · rw [if_neg fun h => hroom h.2] at hfull
          rw [hfull, if_pos rfl, show totalSize.toNat - st.fullProgram.length = 0 by omega,
            List.take_zero, List.take_zero]
      · rw [if_neg fun h => hword h.1.2] at hfull
        rw [hfull, if_pos rfl, if_neg hword]

/-- What is stored are the words of those lines. -/
theorem fullProgram_foldl (totalSize : Word) (i : Nat) (st : SecondPass)
    (lines : List (List Char)) :
    (lines.foldl (secondPassLine totalSize) st).fullProgram = st.fullProgram ++
      (Loop.changes (secondPassLine totalSize) (fun st => st.fullProgram.length) i st lines).map
        fun j => lineWord (lines.getD (j - i) []) := by
  induction lines generalizing i st with
  | nil => simp [Loop.changes]
  | cons line lines ih =>
      have htail : ∀ t : SecondPass,
          (Loop.changes (secondPassLine totalSize) (fun st => st.fullProgram.length) (i + 1) t
            lines).map (fun j => lineWord ((line :: lines).getD (j - i) [])) =
          (Loop.changes (secondPassLine totalSize) (fun st => st.fullProgram.length) (i + 1) t
            lines).map (fun j => lineWord (lines.getD (j - (i + 1)) [])) := by
        intro t
        apply List.map_congr_left
        intro j hj
        have hle := Loop.le_of_mem_changes hj
        rw [show j - i = j - (i + 1) + 1 by omega, List.getD_cons_succ]
      have hfull := secondPassLine_fullProgram totalSize st line
      rw [List.foldl_cons, ih (i + 1), Loop.changes]
      by_cases hstore : (st.inSections = true ∧ isWord line = true) ∧
          st.fullProgram.length < totalSize.toNat
      · rw [if_pos hstore] at hfull
        rw [hfull, List.length_append, List.length_singleton, if_neg (by omega), List.map_cons,
          htail, Nat.sub_self, List.getD_cons_zero, List.append_assoc, List.singleton_append]
      · rw [if_neg hstore] at hfull
        rw [hfull, if_pos rfl, htail]

theorem storedAt_eq (totalSize : Word) (lines : List (List Char)) :
    storedAt totalSize lines =
      ((lines.dropWhile (!isDot ·)).findIdxs isWord (lines.takeWhile (!isDot ·)).length).take
        totalSize.toNat := by
  have hstay : ∀ line ∈ lines.takeWhile (!isDot ·), ∀ st : SecondPass,
      (st.inSections = false ∧ st.fullProgram = []) →
      ((secondPassLine totalSize st line).inSections = false ∧
        (secondPassLine totalSize st line).fullProgram = []) ∧
      (secondPassLine totalSize st line).fullProgram.length = st.fullProgram.length := by
    intro line hline st ⟨hout, hempty⟩
    have hdot : isDot line = false := by simpa using List.mem_takeWhile_imp hline
    rw [secondPassLine_inSections, secondPassLine_fullProgram, hout, hempty, hdot]
    simp
  have hsplit := List.takeWhile_append_dropWhile (p := (!isDot ·)) (l := lines)
  rw [storedAt]
  cases hdrop : lines.dropWhile (!isDot ·) with
  | nil =>
      rw [hdrop, List.append_nil] at hsplit
      rw [← hsplit, List.findIdxs_nil, List.take_nil]
      exact Loop.changes_eq_nil (fun st : SecondPass => st.inSections = false ∧
        st.fullProgram = []) ⟨rfl, rfl⟩ hstay 0
  | cons d rest =>
      have hdot : isDot d = true := by
        have hhead := List.head?_dropWhile_not (!isDot ·) lines
        rw [hdrop] at hhead
        simpa using hhead
      obtain ⟨st, ⟨hout, hempty⟩, hskip⟩ := Loop.changes_skip
        (secondPassLine totalSize) (fun st => st.fullProgram.length)
        (s := ⟨[], false⟩) (d := d)
        (fun st => st.inSections = false ∧ st.fullProgram = []) ⟨rfl, rfl⟩ hstay
        (by
          intro st ⟨hout, _⟩
          rw [secondPassLine_fullProgram, hout]
          simp) 0 rest
      have hin : (secondPassLine totalSize st d).inSections = true := by
        rw [secondPassLine_inSections, hdot, Bool.or_true]
      have hstart : (secondPassLine totalSize st d).fullProgram = [] := by
        rw [secondPassLine_fullProgram, hout, hempty]
        simp
      rw [hdrop] at hsplit
      conv_lhs => rw [← hsplit]
      rw [hskip, changes_secondPass hin, hstart, List.findIdxs_cons, isWord_of_isDot hdot]
      simp

/-- The lines the second pass would store with room for all: the early words,
and then those the first pass counted. -/
theorem storedAt_split {lines : List (List Char)} (h : lines.any isText = true) :
    ∃ early : List Nat, early.length = earlyWords lines ∧
      (∀ j ∈ early, j ∉ countedAt lines) ∧
      ∀ totalSize, storedAt totalSize lines = (early ++ countedAt lines).take totalSize.toNat := by
  obtain ⟨t, ht, hsplit, _⟩ := split_text h
  have hdot : (!isDot t) = false := by rw [isDot_of_isText ht]; rfl
  have hdrop : lines.dropWhile (!isDot ·) =
      (beforeText lines).dropWhile (!isDot ·) ++ t :: afterText lines := by
    conv_lhs => rw [hsplit]
    rw [List.dropWhile_append]
    split
    · rename_i hempty
      rw [List.isEmpty_iff.mp hempty, List.dropWhile_cons, hdot]
      rfl
    · rfl
  have hlength : (lines.takeWhile (!isDot ·)).length +
      ((beforeText lines).dropWhile (!isDot ·)).length = (beforeText lines).length := by
    have hwhole := congrArg List.length
      (List.takeWhile_append_dropWhile (p := (!isDot ·)) (l := lines))
    have hlines := congrArg List.length hsplit
    rw [hdrop] at hwhole
    simp only [List.length_append, List.length_cons] at hwhole hlines
    omega
  refine ⟨((beforeText lines).dropWhile (!isDot ·)).findIdxs isWord
    (lines.takeWhile (!isDot ·)).length, List.length_findIdxs, ?_, fun totalSize => ?_⟩
  · intro j hj hcounted
    have hlt := List.lt_add_of_mem_findIdxs j hj
    rw [countedAt_eq h] at hcounted
    have hge := List.ge_of_mem_findIdxs j hcounted
    omega
  · rw [storedAt_eq, hdrop, List.findIdxs_append, hlength, List.findIdxs_cons,
      isWord_of_isDot (isDot_of_isText ht), countedAt_eq h]
    rfl

/-! ## The two passes together -/

/-- The words `full_program` has room for. -/
def totalSize (lines : List (List Char)) : Word :=
  (firstPass lines).codeSize + (firstPass lines).dataSize

/-- The whole second pass. -/
def secondPass (lines : List (List Char)) : SecondPass :=
  lines.foldl (secondPassLine (totalSize lines)) ⟨[], false⟩

theorem loadProgramFromElf_passes (file : List Char) (draw : Nat) :
    loadProgramFromElf file draw =
      if (Text.lines lineCapacity file).any isText then
        some ((firstPass (Text.lines lineCapacity file)).program
          (secondPass (Text.lines lineCapacity file)).fullProgram draw)
      else none := by
  rw [← firstPass_foundText]
  rfl

/-- Wherever the split falls, the segments together have the words counted. -/
theorem totalSize_eq (lines : List (List Char)) :
    totalSize lines = (firstPass lines).totalWords := by
  unfold totalSize FirstPass.dataSize FirstPass.codeSize
  split
  · rw [BitVec.add_comm, BitVec.sub_add_cancel]
  · exact BitVec.add_zero _

/-- The second pass stores exactly the words the first one counted, line by
line, if and only if fewer than 2^32 words follow the first `.text` and no word
stands between the first line with a dot and that `.text`, unless nothing
follows it. -/
theorem passes_agree_iff {lines : List (List Char)} (h : lines.any isText = true) :
    (storedAt (totalSize lines) lines = countedAt lines ∧
        (secondPass lines).fullProgram =
          (countedAt lines).map fun j => lineWord (lines.getD j [])) ↔
      textWords lines < 2 ^ 32 ∧ (earlyWords lines = 0 ∨ textWords lines = 0) := by
  have hvalues : (secondPass lines).fullProgram =
      (storedAt (totalSize lines) lines).map fun j => lineWord (lines.getD j []) := by
    rw [secondPass, fullProgram_foldl _ 0]
    rfl
  have hcount : (countedAt lines).length = textWords lines := by
    rw [countedAt_eq h, List.length_findIdxs, textWords]
  have hroom : (totalSize lines).toNat = textWords lines % 2 ^ 32 := by
    rw [totalSize_eq, firstPass_totalWords h]
  obtain ⟨early, hearly, hdisjoint, hstored⟩ := storedAt_split h
  rw [hvalues, hstored, hroom, ← hearly]
  constructor
  · rintro ⟨hsame, _⟩
    have hlength := congrArg List.length hsame
    rw [List.length_take, List.length_append, hcount] at hlength
    have hlt : textWords lines < 2 ^ 32 := by
      have hmod := Nat.mod_lt (textWords lines) (by decide : 0 < 2 ^ 32)
      omega
    refine ⟨hlt, ?_⟩
    rw [Nat.mod_eq_of_lt hlt] at hsame
    cases early with
    | nil => exact .inl rfl
    | cons j early =>
        right
        by_contra hne
        obtain ⟨n, hn⟩ : ∃ n, textWords lines = n + 1 := ⟨textWords lines - 1, by omega⟩
        rw [hn, List.cons_append, List.take_succ_cons] at hsame
        exact hdisjoint j (by simp) (hsame ▸ by simp)
  · rintro ⟨hlt, hnone⟩
    rw [Nat.mod_eq_of_lt hlt]
    have hsame : (early ++ countedAt lines).take (textWords lines) = countedAt lines := by
      rcases hnone with hnil | hzero
      · rw [List.length_eq_zero_iff.mp hnil, List.nil_append, ← hcount, List.take_length]
      · rw [hzero, List.take_zero]
        exact (List.length_eq_zero_iff.mp (hcount.trans hzero)).symm
    rw [hsame]
    exact ⟨rfl, rfl⟩

/-- `.data 100`, `AA`, `.text 0`, `BB`. -/
def earlyData : List (List Char) :=
  [dataDirective ++ [' ', '1', '0', '0', '\n'], ['A', 'A', '\n'],
    textDirective ++ [' ', '0', '\n'], ['B', 'B', '\n']]

/-- The first pass counts `BB`, and the second stores `AA` in its place. -/
theorem earlyData_differs : earlyData.any isText = true ∧ countedAt earlyData = [3] ∧
    storedAt (totalSize earlyData) earlyData = [1] ∧
    (secondPass earlyData).fullProgram = [0xAA] := by
  decide +kernel

/-- With `.text` first the passes agree. -/
theorem textFirst_agree : storedAt (totalSize (earlyData.drop 2)) (earlyData.drop 2) =
      countedAt (earlyData.drop 2) ∧
    (secondPass (earlyData.drop 2)).fullProgram =
      (countedAt (earlyData.drop 2)).map fun j => lineWord ((earlyData.drop 2).getD j []) :=
  (passes_agree_iff (by decide +kernel)).mpr (by decide +kernel)

/-! ## The sizes of the segments -/

/-- A `.data` line was read, and its address is above that of `.text`. -/
def DataAbove (lines : List (List Char)) : Prop :=
  lines.any isData = true ∧
    declaredAddress textDirective lines < declaredAddress dataDirective lines

instance (lines : List (List Char)) : Decidable (DataAbove lines) :=
  inferInstanceAs (Decidable (_ ∧ _))

/-- The words between the two declared addresses. -/
def declaredCode (lines : List (List Char)) : Nat :=
  ((declaredAddress dataDirective lines).toNat - (declaredAddress textDirective lines).toNat) /
    wordSize

theorem firstPass_sizes {lines : List (List Char)} (h : lines.any isText = true) :
    (DataAbove lines ∧ (firstPass lines).codeSize.toNat = declaredCode lines ∧
      (firstPass lines).dataSize.toNat =
        (textWords lines + (2 ^ 32 - declaredCode lines)) % 2 ^ 32 ∧
      declaredCode lines < 2 ^ 30) ∨
    (¬ DataAbove lines ∧ (firstPass lines).codeSize.toNat = textWords lines % 2 ^ 32 ∧
      (firstPass lines).dataSize.toNat = 0) := by
  have hwords := firstPass_totalWords h
  obtain ⟨htext, hdata⟩ := firstPass_addresses lines
  have hfound := firstPass_foundData lines
  by_cases habove : DataAbove lines
  · left
    have hsplit : (firstPass lines).foundData = true ∧
        (firstPass lines).textAddr < (firstPass lines).dataAddr := by
      rw [hfound, htext, hdata]
      exact habove
    have hlt : (declaredAddress textDirective lines).toNat <
        (declaredAddress dataDirective lines).toNat := BitVec.lt_def.mp habove.2
    have hhi := (declaredAddress dataDirective lines).isLt
    have hcode : (firstPass lines).codeSize.toNat = declaredCode lines := by
      rw [FirstPass.codeSize, if_pos hsplit, htext, hdata, BitVec.toNat_udiv,
        BitVec.toNat_sub_of_le (BitVec.le_def.mpr (Nat.le_of_lt hlt))]
      rfl
    have hsmall : declaredCode lines < 2 ^ 30 := by
      unfold declaredCode
      simp only [wordSize]
      omega
    refine ⟨habove, hcode, ?_, hsmall⟩
    rw [FirstPass.dataSize, if_pos hsplit, BitVec.toNat_sub, hwords, hcode]
    omega
  · right
    have hsplit : ¬ ((firstPass lines).foundData = true ∧
        (firstPass lines).textAddr < (firstPass lines).dataAddr) := by
      rw [hfound, htext, hdata]
      exact habove
    rw [FirstPass.codeSize, FirstPass.dataSize, if_neg hsplit, if_neg hsplit]
    exact ⟨habove, hwords, rfl⟩

/-- The two sizes add up to the words read, as natural numbers, exactly when
the declared code is not longer than what was read; without a `.data` above
`.text` nothing but a count of 2^32 words can go wrong. -/
theorem loadProgramFromElf_sizes_iff {file : List Char} {draw : Nat} {program : Program}
    (h : loadProgramFromElf file draw = some program) :
    (program.codeSize.toNat ≤ textWords (Text.lines lineCapacity file) ∧
        program.dataSize.toNat =
          textWords (Text.lines lineCapacity file) - program.codeSize.toNat) ↔
      if DataAbove (Text.lines lineCapacity file) then
        declaredCode (Text.lines lineCapacity file) ≤ textWords (Text.lines lineCapacity file) ∧
          textWords (Text.lines lineCapacity file) <
            declaredCode (Text.lines lineCapacity file) + 2 ^ 32
      else textWords (Text.lines lineCapacity file) < 2 ^ 32 := by
  rw [loadProgramFromElf_passes] at h
  split at h
  · rename_i hany
    obtain rfl := Option.some.inj h
    simp only [FirstPass.program]
    rcases firstPass_sizes hany with ⟨habove, hcode, hdata, hsmall⟩ | ⟨habove, hcode, hdata⟩
    · rw [if_pos habove, hcode, hdata]
      omega
    · rw [if_neg habove, hcode, hdata]
      omega
  · cases h

/-- `.text 0` and `.data 100`, and no word. -/
def noWords : List Char :=
  textDirective ++ [' ', '0', '\n'] ++ dataDirective ++ [' ', '1', '0', '0', '\n']

/-- The code has 64 words, none of which was read, and the size of the data
has wrapped. -/
theorem noWords_sizes : textWords (Text.lines lineCapacity noWords) = 0 ∧
    ((loadProgramFromElf noWords 0).any fun program =>
      program.codeSize = 64 && program.dataSize = 4294967232) = true := by
  decide +kernel

/-- One word behind `.data 4`, one before it. -/
def twoWords : List Char :=
  textDirective ++ [' ', '0', '\n', 'A', '\n'] ++ dataDirective ++ [' ', '4', '\n', 'B', '\n']

theorem twoWords_sizes : ∃ program, loadProgramFromElf twoWords 0 = some program ∧
    program.codeSize.toNat ≤ textWords (Text.lines lineCapacity twoWords) ∧
    program.dataSize.toNat =
      textWords (Text.lines lineCapacity twoWords) - program.codeSize.toNat := by
  have hsome : (loadProgramFromElf twoWords 0).isSome = true := by decide +kernel
  obtain ⟨program, h⟩ := Option.isSome_iff_exists.mp hsome
  exact ⟨program, h, (loadProgramFromElf_sizes_iff h).mpr (by decide +kernel)⟩

end LocOS
