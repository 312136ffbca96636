import LocOS.EndToEnd
import LocOS.Passes

/-!
# Estimate

The header the loader gives a generated program: the sizes, and a TTL of three
ticks a word of code, 10 at least and 100 at most. They are right for every
file, whether its image fits the 24-bit space or not; a process is made only
of an image that fits. The TTL covers the code of up to 100 words.
-/

namespace LocOS

/-! ## Rows of digits -/

/-- A row of hexadecimal digits, `n` at most. -/
def IsRow (n : Nat) (l : List Char) : Prop :=
  ∃ ds : List Nat, l = ds.map Text.hexDigit ∧ ds ≠ [] ∧ (∀ d ∈ ds, d < 16) ∧ ds.length ≤ n

namespace IsRow

variable {m n : Nat} {l l' : List Char}

theorem append (h : IsRow m l) (h' : IsRow n l') : IsRow (m + n) (l ++ l') := by
  obtain ⟨ds, rfl, hne, hds, hlen⟩ := h
  obtain ⟨es, rfl, _, hes, hlen'⟩ := h'
  refine ⟨ds ++ es, List.map_append.symm, List.append_ne_nil_of_left_ne_nil hne _, ?_, ?_⟩
  · intro d hd
    exact (List.mem_append.mp hd).elim (hds d) (hes d)
  · rw [List.length_append]
    omega

theorem mono (h : IsRow m l) (hmn : m ≤ n) : IsRow n l := by
  obtain ⟨ds, hl, hne, hds, hlen⟩ := h
  exact ⟨ds, hl, hne, hds, hlen.trans hmn⟩

theorem digit (d : Nat) (hd : d < 16) : IsRow 1 [Text.hexDigit d] :=
  ⟨[d], rfl, List.cons_ne_nil _ _, by simpa using hd, Nat.le_refl _⟩

/-- Whatever the width, a word has eight digits at most. -/
theorem printHex (width : Nat) (hwidth : width ≤ 8) (w : Word) :
    IsRow 8 (Text.printHex width w.toNat) := by
  refine ⟨_, rfl, Text.hexDigits_ne_nil _ _, Text.hexDigits_lt _ _, ?_⟩
  have hwide := Text.length_hexDigits (show 0 < 8 by decide) (show w.toNat < 16 ^ 8 from w.isLt)
  exact (Text.length_hexDigits_mono hwidth w.toNat).trans_eq hwide

theorem length_le (h : IsRow n l) : l.length ≤ n := by
  obtain ⟨ds, rfl, -, -, hlen⟩ := h
  rwa [List.length_map]

theorem newline_not_mem (h : IsRow n l) : '\n' ∉ l := by
  obtain ⟨ds, rfl, -, hds, -⟩ := h
  exact newline_not_mem_digits hds

/-- Both passes read a row as a word. -/
theorem isWord (h : IsRow n l) : isWord (l ++ ['\n']) = true := by
  obtain ⟨ds, rfl, hne, hds, -⟩ := h
  have hscan := Text.scanHex_digits hne hds [] (fun c hc => by cases hc) []
  have hsome : (scanWord (ds.map Text.hexDigit ++ ['\n'])).isSome = true := by
    rw [scanWord, ← List.nil_append (_ ++ ['\n']), hscan]
    rfl
  obtain ⟨d, es, rfl⟩ := List.exists_cons_of_ne_nil hne
  obtain ⟨-, -, -, -, -, hbreak, hdot⟩ := Text.hexDigit_plain (hds d (by simp))
  rw [LocOS.isWord, hsome]
  simp [isDot, hdot, hbreak]

end IsRow

/-! ## The lines of the file -/

/-- From a state of the generator to a later one, `n` rows of digits are
written, a line each. -/
def WritesRows (g g' : GeneratorState) (n : Nat) : Prop :=
  ∃ ls, g'.file = g.file ++ Text.unlines ls ∧ ls.length = n ∧ ∀ l ∈ ls, IsRow 32 l

namespace WritesRows

variable {g g' g'' : GeneratorState} {m n : Nat}

theorem refl (g : GeneratorState) : WritesRows g g 0 :=
  ⟨[], (List.append_nil _).symm, rfl, by simp⟩

theorem trans (h : WritesRows g g' m) (h' : WritesRows g' g'' n) : WritesRows g g'' (m + n) := by
  obtain ⟨ls, hfile, hlen, hls⟩ := h
  obtain ⟨ls', hfile', hlen', hls'⟩ := h'
  refine ⟨ls ++ ls', ?_, ?_, fun l hl => (List.mem_append.mp hl).elim (hls l) (hls' l)⟩
  · rw [hfile', hfile, Text.unlines_append, List.append_assoc]
  · rw [List.length_append, hlen, hlen']

theorem put (g : GeneratorState) {l : List Char} (hl : IsRow 32 l) :
    WritesRows g (g.put (l ++ ['\n'])) 1 :=
  ⟨[l], by simp [GeneratorState.put, Text.unlines], rfl, by simpa using hl⟩

theorem draw (g : GeneratorState) (draws : Draws) : WritesRows g { g with draws } 0 :=
  ⟨[], (List.append_nil _).symm, rfl, by simp⟩

/-- A loop whose iterations write `k` rows each. -/
theorem up {body : GeneratorState → GeneratorState} {k : Nat}
    (hbody : ∀ g, WritesRows g (body g) k) (g : GeneratorState) (n : Nat) :
    WritesRows g (Loop.up (fun _ => body) n g) (k * n) := by
  refine Loop.up_inv (fun i t => WritesRows g t (k * i)) (.refl g) fun i t _ h => ?_
  exact h.trans (hbody t)

end WritesRows

theorem putBlock_rows (dataStart dataSize : Word) (g : GeneratorState) :
    WritesRows g (putBlock dataStart dataSize g) 4 := by
  have hfields : ∀ d < 16, ∀ reg address : Word, IsRow 32
      ([Text.hexDigit d] ++ (Text.printHex 1 reg.toNat ++ Text.printHex 6 address.toNat)) :=
    fun d hd reg address => ((IsRow.digit d hd).append ((IsRow.printHex 1 (by decide) reg).append
      (.printHex 6 (by decide) address))).mono (by decide)
  have hld : ∀ g reg address, WritesRows g (g.put (ldLine reg address)) 1 := fun g reg address =>
    .put g (hfields 0 (by decide) reg address)
  have hst : ∀ g reg address, WritesRows g (g.put (stLine reg address)) 1 := fun g reg address =>
    .put g (hfields 1 (by decide) reg address)
  have hadd : ∀ g reg3 reg1 reg2, WritesRows g (g.put (addLine reg3 reg1 reg2)) 1 := by
    intro g reg3 reg1 reg2
    have hregs := (IsRow.printHex 1 (by decide) reg3).append
      ((IsRow.printHex 1 (by decide) reg1).append (.printHex 1 (by decide) reg2))
    have hzeros : IsRow 4 ['0', '0', '0', '0'] :=
      ⟨[0, 0, 0, 0], rfl, List.cons_ne_nil _ _, by decide, Nat.le_refl _⟩
    have hrow := ((IsRow.digit 2 (by decide)).append hregs).append hzeros
    have hline := WritesRows.put g (hrow.mono (by decide))
    simpa [addLine, Text.hexDigit] using hline
  exact ((((WritesRows.draw g _).trans (hld _ _ _)).trans (hld _ _ _)).trans
    (hadd _ _ _ _)).trans (hst _ _ _)

theorem putDatum_rows (g : GeneratorState) : WritesRows g (putDatum g) 1 := by
  refine (WritesRows.draw g _).trans (.put _ ?_)
  exact (IsRow.printHex 8 (Nat.le_refl _) _).mono (by decide)

theorem putExit_rows (g : GeneratorState) : WritesRows g (g.put exitLine) 1 :=
  .put g ⟨[15, 0, 0, 0, 0, 0, 0, 0], rfl, List.cons_ne_nil _ _, by decide, by decide⟩

/-! ## The sizes -/

/-- Words of code in the file: four a block, and the exit. -/
def codeWords (maxLines : Word) (draws : Draws) : Nat :=
  4 * ((drawnCodeSize maxLines draws).toNat / 4) + 1

/-- Words of data in the file. -/
def dataWords (maxLines : Word) (draws : Draws) : Nat := (drawnDataSize maxLines draws).toNat

section
variable (maxLines : Word) (draws : Draws)

/-- Behind the headers the file has a row for each word. -/
theorem generate_rows : ∃ ls,
    generate maxLines draws = textLine codeStart ++
      dataHeaderLine (dataStartOf (drawnCodeSize maxLines draws)) ++ Text.unlines ls ∧
    ls.length = codeWords maxLines draws + dataWords maxLines draws ∧ ∀ l ∈ ls, IsRow 32 l := by
  obtain ⟨ls, hfile, hlen, hls⟩ :=
    ((WritesRows.up (putBlock_rows (dataStartOf (drawnCodeSize maxLines draws))
      (drawnDataSize maxLines draws)) ⟨(rand (rand draws).2).2, textLine codeStart ++
        dataHeaderLine (dataStartOf (drawnCodeSize maxLines draws))⟩
      (drawnCodeSize maxLines draws >>> 2).toNat).trans (putExit_rows _)).trans
      (.up putDatum_rows _ (drawnDataSize maxLines draws).toNat)
  refine ⟨ls, hfile, hlen.trans ?_, hls⟩
  rw [toNat_shiftRight_two, codeWords, dataWords, Nat.one_mul]

variable (h : codeWords maxLines draws < 2 ^ 22)
include h

/-- The loader reads the two headers, and the rows. -/
theorem generate_lines : ∃ ls,
    Text.lines lineCapacity (generate maxLines draws) =
      (headers (4 * codeWords maxLines draws) ++ ls).map (· ++ ['\n']) ∧
    ls.length = codeWords maxLines draws + dataWords maxLines draws ∧ ∀ l ∈ ls, IsRow 32 l := by
  obtain ⟨ls, hfile, hlen, hls⟩ := generate_rows maxLines draws
  have hstart := dataStartOf_toNat (drawnCodeSize maxLines draws) (by
    unfold codeWords at h
    omega)
  rw [← unlines_headers hstart, ← Text.unlines_append] at hfile
  have hfit := headers_fit (show 4 * codeWords maxLines draws < 2 ^ 24 by omega)
  refine ⟨ls, ?_, hlen, hls⟩
  rw [hfile]
  refine Text.lines_unlines (fun l hl => ?_) fun l hl => ?_
  · rcases List.mem_append.mp hl with hl | hl
    · exact (hfit l hl).1 ▸ (by decide)
    · exact (hls l hl).length_le.trans_lt (by decide)
  · rcases List.mem_append.mp hl with hl | hl
    · exact (hfit l hl).2
    · exact (hls l hl).newline_not_mem

end

/-- What headers and rows declare, and how many words stand behind them. -/
theorem declared_headers (dataStart : Nat) {ls : List (List Char)} (hls : ∀ l ∈ ls, IsRow 32 l) :
    let lines := (headers dataStart ++ ls).map (· ++ ['\n'])
    lines.any isText = true ∧ lines.any isData = true ∧
      declaredAddress textDirective lines = 0 ∧
      declaredAddress dataDirective lines = BitVec.ofNat 32 dataStart ∧
      textWords lines = ls.length := by
  have hword : ∀ line ∈ ls.map (· ++ ['\n']), isWord line = true := by
    intro line hline
    obtain ⟨l, hl, rfl⟩ := List.mem_map.mp hline
    exact (hls l hl).isWord
  have hnone : ∀ directive : List Char, directive.head? = some '.' →
      (ls.map (· ++ ['\n'])).filter (isDirective directive) = [] := by
    intro directive hd
    refine List.filter_eq_nil_iff.mpr fun line hline hdir => ?_
    have hdot : isDot line = true := decide_eq_true (isDirective_head hd hdir)
    have hno := isWord_of_isDot hdot
    rw [hword line hline] at hno
    cases hno
  have htext : scanWord (' ' :: (Text.printHex 6 0 ++ ['\n'])) = some 0 := scanWord_header 0
  have hdata : scanWord (' ' :: (Text.printHex 6 dataStart ++ ['\n'])) =
      some (BitVec.ofNat 32 dataStart) := scanWord_header dataStart
  intro lines
  have hlines : lines = (headers dataStart).map (· ++ ['\n']) ++ ls.map (· ++ ['\n']) :=
    List.map_append
  rw [hlines]
  refine ⟨by simp [headers, isText, isDirective, textDirective],
    by simp [headers, isData, isDirective, dataDirective], ?_, ?_, ?_⟩
  · rw [declaredAddress, List.filter_append, hnone _ rfl]
    simp [headers, isDirective, textDirective, htext]
  · rw [declaredAddress, List.filter_append, hnone _ rfl]
    simp [headers, isDirective, dataDirective, hdata]
  · have hafter : afterText ((headers dataStart).map (· ++ ['\n']) ++ ls.map (· ++ ['\n'])) =
        (['.', 'd', 'a', 't', 'a', ' '] ++ Text.printHex 6 dataStart ++ ['\n']) ::
          ls.map (· ++ ['\n']) := by
      simp [afterText, headers, isText, isDirective, textDirective]
    have hcount : (ls.map (· ++ ['\n'])).countP isWord = ls.length := by
      rw [List.countP_eq_length.mpr hword, List.length_map]
    rw [textWords, hafter, List.countP_cons, hcount, if_neg (by simp [isWord, isDot]),
      Nat.add_zero]

/-- The loader finds the sizes of code and data, whether the image fits or
not. -/
theorem firstPass_generate (maxLines : Word) (draws : Draws)
    (h : codeWords maxLines draws < 2 ^ 22) :
    let first := firstPass (Text.lines lineCapacity (generate maxLines draws))
    first.codeSize.toNat = codeWords maxLines draws ∧
      first.dataSize.toNat = dataWords maxLines draws ∧
      first.textAddr = 0 ∧ first.dataAddr.toNat = 4 * codeWords maxLines draws := by
  obtain ⟨ls, hlines, hlen, hls⟩ := generate_lines maxLines draws h
  obtain ⟨htext, hdata, htextAddr, hdataAddr, hwords⟩ :=
    declared_headers (4 * codeWords maxLines draws) hls
  rw [← hlines] at htext hdata htextAddr hdataAddr hwords
  have haddr : (BitVec.ofNat 32 (4 * codeWords maxLines draws)).toNat =
      4 * codeWords maxLines draws := by
    rw [BitVec.toNat_ofNat]
    omega
  have habove : DataAbove (Text.lines lineCapacity (generate maxLines draws)) := by
    refine ⟨hdata, ?_⟩
    rw [htextAddr, hdataAddr, BitVec.lt_def, haddr, codeWords]
    exact Nat.succ_pos _
  obtain ⟨hfirstText, hfirstData⟩ := firstPass_addresses
    (Text.lines lineCapacity (generate maxLines draws))
  intro first
  rcases firstPass_sizes htext with ⟨_, hcode, hsize, _⟩ | ⟨hno, _⟩
  · have hdeclared : declaredCode (Text.lines lineCapacity (generate maxLines draws)) =
        codeWords maxLines draws := by
      rw [declaredCode, htextAddr, hdataAddr, haddr]
      exact Nat.mul_div_cancel_left _ (by decide)
    have hlt : dataWords maxLines draws < 2 ^ 32 := (drawnDataSize maxLines draws).isLt
    refine ⟨hcode.trans hdeclared, ?_, hfirstText.trans htextAddr, ?_⟩
    · rw [hsize, hdeclared, hwords, hlen]
      omega
    · rw [hfirstData, hdataAddr, haddr]
  · exact absurd habove hno

/-! ## The estimate -/

theorem estimatedTtl_bounds (codeSize : Word) :
    10 ≤ estimatedTtl codeSize ∧ estimatedTtl codeSize ≤ 100 := by
  unfold estimatedTtl
  dsimp only
  split
  · decide
  · split
    · decide
    · omega

/-- Up to 100 words have a tick each. -/
theorem le_estimatedTtl {codeSize : Word} (h : codeSize.toNat ≤ 100) :
    (codeSize.toNat : Int) ≤ estimatedTtl codeSize := by
  have hthree : (codeSize * 3).toNat = codeSize.toNat * 3 := by
    rw [BitVec.toNat_mul]
    show codeSize.toNat * 3 % 2 ^ 32 = _
    omega
  have hint : (codeSize * 3).toInt = codeSize.toNat * 3 := by
    rw [BitVec.toInt_eq_toNat_of_lt (by omega), hthree]
    rfl
  unfold estimatedTtl
  rw [hint]
  dsimp only
  split
  · omega
  · split
    · omega
    · omega

theorem toNat_estimatedTtl (codeSize : Word) :
    (BitVec.ofInt 32 (estimatedTtl codeSize)).toNat = (estimatedTtl codeSize).toNat := by
  obtain ⟨hlow, hhigh⟩ := estimatedTtl_bounds codeSize
  rw [BitVec.toNat_ofInt]
  omega

theorem toInt_estimatedTtl (codeSize : Word) :
    (BitVec.ofInt 32 (estimatedTtl codeSize)).toInt = estimatedTtl codeSize := by
  obtain ⟨hlow, hhigh⟩ := estimatedTtl_bounds codeSize
  exact BitVec.toInt_ofInt_eq_self (by decide) (by omega) (by omega)

section
variable {file : List Char} {draw : Nat} {program : Program}

theorem loaded_header (hload : loadProgramFromElf file draw = some program) :
    program.codeSize = (firstPass (Text.lines lineCapacity file)).codeSize ∧
      program.ttl = BitVec.ofInt 32 (estimatedTtl program.codeSize) ∧
      program.priority = BitVec.ofInt 32 (drawnPriority draw) := by
  rw [loadProgramFromElf_passes] at hload
  split at hload
  · obtain rfl := Option.some.inj hload
    exact ⟨rfl, rfl, rfl⟩
  · cases hload

/-- The PCB gets the TTL of the header. -/
theorem loaded_ttl (hload : loadProgramFromElf file draw = some program) :
    program.ttl.toInt.toNat = program.ttl.toNat := by
  obtain ⟨_, httl, _⟩ := loaded_header hload
  rw [httl, toInt_estimatedTtl, toNat_estimatedTtl]

/-- There is a queue for the priority drawn. -/
theorem loaded_priority (hload : loadProgramFromElf file draw = some program) :
    minPriority ≤ program.priority.toInt ∧ program.priority.toInt ≤ maxPriority := by
  obtain ⟨_, _, hprio⟩ := loaded_header hload
  have hmin : minPriority = -20 := rfl
  have hmax : maxPriority = 19 := rfl
  have hbounds : -20 ≤ drawnPriority draw ∧ drawnPriority draw ≤ 19 := by
    have hlt : draw % numPriorityLevels < 40 := Nat.mod_lt draw (by decide)
    unfold drawnPriority
    omega
  rw [hprio, BitVec.toInt_ofInt_eq_self (by decide) (by omega) (by omega), hmin, hmax]
  exact hbounds

end

/-- Code and data of the program as the header describes them. -/
theorem loaded_laidOut {maxLines : Word} {draws : Draws} {draw : Nat} {program : Program}
    (hload : loadProgramFromElf (generate maxLines draws) draw = some program)
    (h : codeWords maxLines draws < 2 ^ 22) :
    program.LaidOut (codeWords maxLines draws) (dataWords maxLines draws) := by
  rw [loadProgramFromElf_passes] at hload
  split at hload
  · obtain rfl := Option.some.inj hload
    obtain ⟨hcode, hdata, htextAddr, hdataAddr⟩ := firstPass_generate maxLines draws h
    exact ⟨htextAddr, hdataAddr, hcode, hdata⟩
  · cases hload

/-- The memory has frames for an image of 2^24 bytes at most: no process is
made of a larger one, unless its length is no `unsigned int`. -/
theorem fits_of_created {maxLines : Word} {draws : Draws} {draw : Nat} {program : Program}
    {programs : List Program} {pcb : PCB}
    (hload : loadProgramFromElf (generate maxLines draws) draw = some program)
    (hcreated : (program, pcb) ∈ (loaded programs).1) (h : codeWords maxLines draws < 2 ^ 22)
    (hsize : 4 * (codeWords maxLines draws + dataWords maxLines draws) + pageSize ≤ 2 ^ 32) :
    ImageFits maxLines draws := by
  have hpos : 0 < dataWords maxLines draws :=
    Nat.lt_of_lt_of_le (by decide) (four_le_drawnDataSize maxLines draws)
  have hpages := (loaded_laidOut hload h).totalPages hpos hsize
  have hframes : program.totalPages.toNat ≤ totalFrames :=
    (loaded_layout programs).pages_le (List.mem_map_of_mem (f := spaceOf) hcreated)
  rw [hpages] at hframes
  have hfits : 4 * (codeWords maxLines draws + dataWords maxLines draws) ≤ 2 ^ 24 := by
    simp only [totalFrames] at hframes
    omega
  exact hfits

/-- The TTL covers the code words exactly when there are at most 100. -/
theorem generate_ttl {maxLines : Word} {draws : Draws} {draw : Nat} {program : Program}
    (hload : loadProgramFromElf (generate maxLines draws) draw = some program) :
    codeWords maxLines draws ≤ program.ttl.toNat ↔ codeWords maxLines draws ≤ 100 := by
  obtain ⟨hsize, httl, _⟩ := loaded_header hload
  obtain ⟨_, hhigh⟩ := estimatedTtl_bounds program.codeSize
  rw [httl, toNat_estimatedTtl]
  constructor
  · intro h
    omega
  · intro h
    have hcode : program.codeSize.toNat = codeWords maxLines draws := by
      rw [hsize, (firstPass_generate maxLines draws (by omega)).1]
    have hle := le_estimatedTtl (hcode.trans_le h)
    omega

end LocOS
