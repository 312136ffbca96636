import LocOS.Elf
import LocOS.Generated

/-!
# RoundTrip

The loader undoes the generator. Each word line is counted once by the first
pass and stored once by the second; the `.data` address is four times the
length of the code, so the split falls behind the exit.
-/

namespace LocOS

/-! ## Decoding generated words -/

section
variable {reg address : Nat} (hreg : reg < 16) (haddress : address < 2 ^ 24)
include hreg haddress

theorem ldWord_toNat : (ldWord reg address).toNat = reg * 2 ^ 24 + address := by
  rw [ldWord, BitVec.toNat_ofNat]
  omega

theorem stWord_toNat : (stWord reg address).toNat = 2 ^ 28 + reg * 2 ^ 24 + address := by
  rw [stWord, BitVec.toNat_ofNat]
  omega

theorem extractOpcode_ldWord : extractOpcode (ldWord reg address) = opLd := by
  refine Fin.ext ?_
  rw [extractOpcode, nibble_shift, ldWord_toNat hreg haddress]
  show _ = 0
  omega

theorem extractReg_ldWord : (extractReg (ldWord reg address)).val = reg := by
  rw [extractReg, nibble_shift, ldWord_toNat hreg haddress]
  omega

theorem extractAddress_ldWord : (extractAddress (ldWord reg address)).toNat = address := by
  rw [extractAddress_toNat, ldWord_toNat hreg haddress]
  omega

theorem extractOpcode_stWord : extractOpcode (stWord reg address) = opSt := by
  refine Fin.ext ?_
  rw [extractOpcode, nibble_shift, stWord_toNat hreg haddress]
  show _ = 1
  omega

theorem extractReg_stWord : (extractReg (stWord reg address)).val = reg := by
  rw [extractReg, nibble_shift, stWord_toNat hreg haddress]
  omega

theorem extractAddress_stWord : (extractAddress (stWord reg address)).toNat = address := by
  rw [extractAddress_toNat, stWord_toNat hreg haddress]
  omega

end

section
variable {reg3 reg1 reg2 : Nat} (h3 : reg3 < 16) (h1 : reg1 < 16) (h2 : reg2 < 16)
include h3 h1 h2

theorem addWord_toNat : (addWord reg3 reg1 reg2).toNat =
    2 * 2 ^ 28 + reg3 * 2 ^ 24 + reg1 * 2 ^ 20 + reg2 * 2 ^ 16 := by
  rw [addWord, BitVec.toNat_ofNat]
  omega

theorem extractOpcode_addWord : extractOpcode (addWord reg3 reg1 reg2) = opAdd := by
  refine Fin.ext ?_
  rw [extractOpcode, nibble_shift, addWord_toNat h3 h1 h2]
  show _ = 2
  omega

theorem extractReg_addWord : (extractReg (addWord reg3 reg1 reg2)).val = reg3 := by
  rw [extractReg, nibble_shift, addWord_toNat h3 h1 h2]
  omega

theorem extractRegSrc1_addWord : (extractRegSrc1 (addWord reg3 reg1 reg2)).val = reg1 := by
  rw [extractRegSrc1, nibble_shift, addWord_toNat h3 h1 h2]
  omega

theorem extractRegSrc2_addWord : (extractRegSrc2 (addWord reg3 reg1 reg2)).val = reg2 := by
  rw [extractRegSrc2, nibble_shift, addWord_toNat h3 h1 h2]
  omega

end

/-! ## Reading one line -/

theorem Spells.scanWord {l : List Char} {w : Word} (h : Spells l w) :
    scanWord (l ++ ['\n']) = some w := by
  obtain ⟨ds, rfl, hne, hds, -, hvalue⟩ := h
  have hscan := Text.scanHex_digits hne hds [] (fun c hc => by cases hc) []
  rw [LocOS.scanWord, ← List.nil_append (_ ++ ['\n']), hscan, hvalue]
  exact congrArg some (by rw [BitVec.ofInt_natCast, BitVec.ofNat_toNat, BitVec.setWidth_eq])

/-- A line of a word is neither a directive nor empty. -/
theorem Spells.head {l : List Char} {w : Word} (h : Spells l w) :
    ∃ c cs, l = c :: cs ∧ c ≠ '.' ∧ c ≠ '\n' := by
  obtain ⟨ds, rfl, hne, hds, -, -⟩ := h
  obtain ⟨d, es, rfl⟩ := List.exists_cons_of_ne_nil hne
  obtain ⟨-, -, -, -, -, hbreak, hdot⟩ := Text.hexDigit_plain (hds d (by simp))
  exact ⟨_, _, List.map_cons, hdot, hbreak⟩

theorem Spells.length_le {l : List Char} {w : Word} (h : Spells l w) : l.length ≤ 8 := by
  obtain ⟨ds, rfl, -, -, hlen, -⟩ := h
  rwa [List.length_map]

theorem newline_not_mem_digits {ds : List Nat} (hds : ∀ d ∈ ds, d < 16) :
    '\n' ∉ ds.map Text.hexDigit := by
  intro h
  obtain ⟨d, hd, he⟩ := List.mem_map.mp h
  exact (Text.hexDigit_plain (hds d hd)).2.2.2.2.2.1 he

theorem Spells.newline_not_mem {l : List Char} {w : Word} (h : Spells l w) : '\n' ∉ l := by
  obtain ⟨ds, rfl, -, hds, -, -⟩ := h
  exact newline_not_mem_digits hds

theorem firstPassLine_word {st : FirstPass} {l : List Char} {w : Word} (h : Spells l w)
    (hfound : st.foundText = true) :
    firstPassLine st (l ++ ['\n']) = { st with totalWords := st.totalWords + 1 } := by
  obtain ⟨c, cs, rfl, hdot, hbreak⟩ := h.head
  have hscan := h.scanWord
  have hno : ∀ directive : List Char, directive.head? = some '.' →
      isDirective directive ((c :: cs) ++ ['\n']) = false := by
    intro directive hd
    refine decide_eq_false fun he => ?_
    rw [← he] at hd
    simp at hd
    exact hdot hd
  rw [firstPassLine, hno _ rfl, hno _ rfl, hscan]
  simp [hfound, hdot, hbreak]

theorem secondPassLine_word {totalSize : Word} {st : SecondPass} {l : List Char} {w : Word}
    (h : Spells l w) (hin : st.inSections = true)
    (hroom : st.fullProgram.length < totalSize.toNat) :
    secondPassLine totalSize st (l ++ ['\n']) =
      { st with fullProgram := st.fullProgram ++ [w] } := by
  obtain ⟨c, cs, rfl, hdot, hbreak⟩ := h.head
  rw [secondPassLine, h.scanWord]
  simp [hin, hdot, hbreak, hroom]

/-! ## The two passes -/

theorem firstPass_words {ls : List (List Char)} {ws : List Word} (h : List.Forall₂ Spells ls ws)
    {st : FirstPass} (hfound : st.foundText = true) :
    (ls.map (· ++ ['\n'])).foldl firstPassLine st =
      { st with totalWords := st.totalWords + BitVec.ofNat 32 ws.length } := by
  induction h generalizing st with
  | nil => simp
  | cons hl _ ih =>
      rw [List.map_cons, List.foldl_cons, firstPassLine_word hl hfound, ih (by exact hfound)]
      simp only [List.length_cons, BitVec.ofNat_add, BitVec.add_assoc]
      congr 2
      exact BitVec.add_comm _ _

theorem secondPass_words {totalSize : Word} {ls : List (List Char)} {ws : List Word}
    (h : List.Forall₂ Spells ls ws) {st : SecondPass} (hin : st.inSections = true)
    (hroom : st.fullProgram.length + ws.length ≤ totalSize.toNat) :
    (ls.map (· ++ ['\n'])).foldl (secondPassLine totalSize) st =
      { st with fullProgram := st.fullProgram ++ ws } := by
  induction h generalizing st with
  | nil => simp
  | cons hl _ ih =>
      rw [List.length_cons] at hroom
      rw [List.map_cons, List.foldl_cons, secondPassLine_word hl hin (by omega),
        ih (by exact hin) (by simp; omega)]
      simp

/-- A section header, as the generator prints it. -/
theorem scanWord_header (dataStart : Nat) :
    scanWord (' ' :: Text.printHex 6 dataStart ++ ['\n']) = some (BitVec.ofNat 32 dataStart) := by
  have hblank : ∀ c ∈ [' '], Text.isSpace c = true := List.forall_mem_singleton.mpr rfl
  have hscan := Text.scanHex_digits (Text.hexDigits_ne_nil 6 dataStart)
    (Text.hexDigits_lt 6 dataStart) [' '] hblank []
  rw [scanWord]
  show Option.map _ (Text.scanHex ([' '] ++ (Text.printHex 6 dataStart ++ ['\n']))) = _
  rw [Text.printHex, hscan, Text.value_hexDigits]
  rfl

theorem exists_spells {ls : List (List Char)} {ws : List Word} (h : List.Forall₂ Spells ls ws)
    {l : List Char} (hl : l ∈ ls) : ∃ w, Spells l w := by
  induction h with
  | nil => cases hl
  | cons hhead _ ih =>
      rcases List.mem_cons.mp hl with rfl | hl
      · exact ⟨_, hhead⟩
      · exact ih hl

/-- The file behind its headers. -/
structure Emitted (file : List Char) (dataStart : Nat) (ws : List Word) : Prop where
  lines : ∃ ls, file = Text.unlines (headers dataStart ++ ls) ∧ List.Forall₂ Spells ls ws
  dataStart_lt : dataStart < 2 ^ 24

/-- The headers fit the buffer the loader reads with. -/
theorem headers_fit {dataStart : Nat} (h : dataStart < 2 ^ 24) :
    ∀ l ∈ headers dataStart, l.length = 12 ∧ '\n' ∉ l := by
  intro l hl
  have hlen : ∀ n < 2 ^ 24, (Text.printHex 6 n).length = 6 := fun n hn => by
    rw [Text.printHex, List.length_map, Text.length_hexDigits (by decide) hn]
  have hbreak : ∀ n, '\n' ∉ Text.printHex 6 n := fun n =>
    newline_not_mem_digits (Text.hexDigits_lt 6 n)
  rcases List.mem_pair.mp hl with rfl | rfl
  · simp [hlen 0 (by decide), hbreak 0]
  · simp [hlen dataStart h, hbreak dataStart]

theorem Emitted.lines_eq {file : List Char} {dataStart : Nat} {ws : List Word}
    (h : Emitted file dataStart ws) :
    ∃ ls, Text.lines lineCapacity file = (headers dataStart ++ ls).map (· ++ ['\n']) ∧
      List.Forall₂ Spells ls ws := by
  obtain ⟨ls, rfl, hls⟩ := h.lines
  have hword : ∀ l ∈ ls, l.length ≤ 8 ∧ '\n' ∉ l := by
    intro l hl
    obtain ⟨w, hw⟩ := exists_spells hls hl
    exact ⟨hw.length_le, hw.newline_not_mem⟩
  have hheader := headers_fit h.dataStart_lt
  refine ⟨ls, Text.lines_unlines ?_ ?_, hls⟩
  · intro l hl
    rcases List.mem_append.mp hl with hl | hl
    · exact (hheader l hl).1 ▸ (by decide)
    · exact Nat.lt_of_le_of_lt (hword l hl).1 (by decide)
  · intro l hl
    rcases List.mem_append.mp hl with hl | hl
    · exact (hheader l hl).2
    · exact (hword l hl).2

/-- What the first pass finds in such a file. -/
def foundPass (dataStart totalWords : Nat) : FirstPass where
  textAddr := 0
  dataAddr := BitVec.ofNat 32 dataStart
  foundText := true
  foundData := true
  totalWords := BitVec.ofNat 32 totalWords

theorem firstPass_emitted {file : List Char} {dataStart : Nat} {ws : List Word}
    (h : Emitted file dataStart ws) :
    (Text.lines lineCapacity file).foldl firstPassLine .start =
      foundPass dataStart ws.length := by
  obtain ⟨ls, hlines, hls⟩ := h.lines_eq
  have htext : firstPassLine .start
      (['.', 't', 'e', 'x', 't', ' '] ++ Text.printHex 6 0 ++ ['\n']) =
      { FirstPass.start with foundText := true } := by decide
  have hdata : ∀ st, firstPassLine st
      (['.', 'd', 'a', 't', 'a', ' '] ++ Text.printHex 6 dataStart ++ ['\n']) =
      { st with dataAddr := BitVec.ofNat 32 dataStart, foundData := true } := by
    intro st
    rw [firstPassLine, if_neg (by simp [isDirective, textDirective]),
      if_pos (by simp [isDirective, dataDirective])]
    show { st with
      dataAddr := (scanWord (' ' :: Text.printHex 6 dataStart ++ ['\n'])).getD st.dataAddr
      foundData := true } = _
    rw [scanWord_header]
    rfl
  rw [hlines, headers, List.map_append, List.foldl_append, List.map_cons, List.map_cons,
    List.map_nil, List.foldl_cons, List.foldl_cons, List.foldl_nil, htext, hdata,
    firstPass_words hls rfl]
  simp [FirstPass.start, foundPass]

theorem secondPass_emitted {file : List Char} {dataStart : Nat} {ws : List Word}
    (h : Emitted file dataStart ws) {totalSize : Word} (hroom : ws.length ≤ totalSize.toNat) :
    ((Text.lines lineCapacity file).foldl (secondPassLine totalSize) ⟨[], false⟩).fullProgram =
      ws := by
  obtain ⟨ls, hlines, hls⟩ := h.lines_eq
  have hheader : ∀ st cs, secondPassLine totalSize st ('.' :: cs) =
      { st with inSections := true } := fun st cs => if_pos rfl
  rw [hlines, headers, List.map_append, List.foldl_append, List.map_cons, List.map_cons,
    List.map_nil, List.foldl_cons, List.foldl_cons, List.foldl_nil]
  simp only [List.cons_append, hheader]
  rw [secondPass_words hls rfl (by simpa using hroom)]
  rfl

/-! ## The program -/

/-- The program is the generated one: sizes, addresses and words. -/
structure LoadsBack (maxLines : Word) (draws : Draws) (program : Program) : Prop where
  textAddress : program.textAddress = 0
  dataAddress : program.dataAddress.toNat = 4 * program.codeSize.toNat
  codeSize : program.codeSize.toNat = 4 * ((drawnCodeSize maxLines draws).toNat / 4) + 1
  dataSize : program.dataSize = drawnDataSize maxLines draws
  /-- The lines behind the headers spell the code and then the data. -/
  emitted : ∃ ls, generate maxLines draws =
      Text.unlines (headers program.dataAddress.toNat ++ ls) ∧
    List.Forall₂ Spells ls (program.codeSegment ++ program.dataSegment)
  exit : program.codeSegment.getLast? = some exitWord
  accesses : ∀ w ∈ program.codeSegment, extractOpcode w = opLd ∨ extractOpcode w = opSt →
    program.dataAddress.toNat ≤ (extractAddress w).toNat ∧
      (extractAddress w).toNat < program.dataAddress.toNat + 4 * program.dataSize.toNat

section
variable (p : GeneratedProgram)

theorem GeneratedProgram.dataAddress_bounds (o : Nat) :
    4 * p.codeSize ≤ p.dataAddress o ∧ p.dataAddress o < 4 * p.codeSize + 4 * p.dataSize := by
  have := Nat.mod_lt o p.dataSize_pos
  simp only [GeneratedProgram.dataAddress]
  omega

theorem GeneratedProgram.accesses : ∀ w ∈ p.code, extractOpcode w = opLd ∨ extractOpcode w = opSt →
    4 * p.codeSize ≤ (extractAddress w).toNat ∧
      (extractAddress w).toNat < 4 * p.codeSize + 4 * p.dataSize := by
  intro w hw hop
  have hlt16 : ∀ r, r % 16 < 16 := fun r => Nat.mod_lt r (by decide)
  rcases List.mem_append.mp hw with hw | hw
  · obtain ⟨b, -, hw⟩ := List.mem_flatMap.mp hw
    simp only [GeneratedProgram.blockWords, List.mem_cons, List.not_mem_nil, or_false] at hw
    rcases hw with rfl | rfl | rfl | rfl
    · rw [extractAddress_ldWord (p.reg_lt b) (p.dataAddress_lt _)]
      exact p.dataAddress_bounds _
    · rw [extractAddress_ldWord (hlt16 _) (p.dataAddress_lt _)]
      exact p.dataAddress_bounds _
    · rw [extractOpcode_addWord (hlt16 _) (p.reg_lt b) (hlt16 _)] at hop
      exact absurd hop (by decide)
    · rw [extractAddress_stWord (hlt16 _) (p.dataAddress_lt _)]
      exact p.dataAddress_bounds _
  · rw [List.mem_singleton.mp hw] at hop
    exact absurd hop (by decide)

end

theorem map_getD_range (ws us vs : List Word) (h : ws = us ++ vs) :
    (List.range us.length).map (fun i => ws.getD i 0) = us ∧
      (List.range vs.length).map (fun i => ws.getD (us.length + i) 0) = vs := by
  subst h
  constructor
  · refine List.ext_getElem (by simp) fun i hi _ => ?_
    rw [List.length_map, List.length_range] at hi
    simp [List.getElem?_append_left hi, List.getElem?_eq_getElem hi]
  · refine List.ext_getElem (by simp) fun i hi _ => ?_
    rw [List.length_map, List.length_range] at hi
    simp [List.getElem?_append_right, List.getElem?_eq_getElem hi]

/-- The split at the `.data` address. -/
theorem foundPass_sizes {n m : Nat} (hn : 0 < n) (hfits : 4 * (n + m) ≤ 2 ^ 24) :
    (foundPass (4 * n) (n + m)).codeSize.toNat = n ∧
      (foundPass (4 * n) (n + m)).dataSize.toNat = m := by
  have haddr : (BitVec.ofNat 32 (4 * n)).toNat = 4 * n := by
    rw [BitVec.toNat_ofNat]
    omega
  have hsplit : (foundPass (4 * n) (n + m)).foundData = true ∧
      (foundPass (4 * n) (n + m)).textAddr < (foundPass (4 * n) (n + m)).dataAddr := by
    refine ⟨rfl, ?_⟩
    show 0#32 < BitVec.ofNat 32 (4 * n)
    rw [BitVec.lt_def, haddr]
    exact Nat.mul_pos (by decide) hn
  have hcode : (foundPass (4 * n) (n + m)).codeSize.toNat = n := by
    have hsize : (BitVec.ofNat 32 wordSize).toNat = 4 := rfl
    rw [FirstPass.codeSize, if_pos hsplit]
    show ((BitVec.ofNat 32 (4 * n) - 0#32) / BitVec.ofNat 32 wordSize).toNat = n
    rw [BitVec.sub_zero, BitVec.toNat_udiv, hsize, haddr, Nat.mul_div_cancel_left n (by decide)]
  refine ⟨hcode, ?_⟩
  rw [FirstPass.dataSize, if_pos hsplit, BitVec.toNat_sub, hcode]
  show (2 ^ 32 - n + (BitVec.ofNat 32 (n + m)).toNat) % 2 ^ 32 = m
  rw [BitVec.toNat_ofNat]
  omega

/-- What the loader makes of code and data, split by the `.data` address. -/
theorem loadProgramFromElf_emitted {file : List Char} {code data : List Word}
    (h : Emitted file (4 * code.length) (code ++ data)) (hcode : 0 < code.length)
    (hfits : 4 * (code.length + data.length) ≤ 2 ^ 24) (draw : Nat) :
    ∃ program, loadProgramFromElf file draw = some program ∧ program.textAddress = 0 ∧
      program.dataAddress = BitVec.ofNat 32 (4 * code.length) ∧
      program.codeSize.toNat = code.length ∧ program.dataSize.toNat = data.length ∧
      program.codeSegment = code ∧ program.dataSegment = data := by
  obtain ⟨hn, hm⟩ := foundPass_sizes hcode hfits
  have hfirst := firstPass_emitted h
  rw [List.length_append] at hfirst
  set first := foundPass (4 * code.length) (code.length + data.length) with hdef
  have hroom : (code ++ data).length ≤ (first.codeSize + first.dataSize).toNat := by
    rw [BitVec.toNat_add, hn, hm, List.length_append]
    omega
  have hsecond := secondPass_emitted h hroom
  have hload : loadProgramFromElf file draw = some (first.program (code ++ data) draw) := by
    unfold loadProgramFromElf
    rw [hfirst]
    dsimp only
    have hfound : first.foundText = true := rfl
    rw [if_pos hfound, hsecond]
  obtain ⟨hcodeSegment, hdataSegment⟩ := map_getD_range (code ++ data) code data rfl
  refine ⟨_, hload, rfl, rfl, hn, hm, ?_, ?_⟩
  · show (List.range first.codeSize.toNat).map _ = code
    rw [hn]
    exact hcodeSegment
  · show (List.range first.dataSize.toNat).map (fun i =>
      (code ++ data).getD (first.codeSize.toNat + i) 0) = data
    rw [hm, hn]
    exact hdataSegment

/-- The program holds the words that were drawn. -/
structure Holds (p : GeneratedProgram) (program : Program) : Prop where
  textAddress : program.textAddress = 0
  dataAddress : program.dataAddress.toNat = 4 * p.codeSize
  codeSize : program.codeSize.toNat = p.codeSize
  dataSize : program.dataSize.toNat = p.dataSize
  codeSegment : program.codeSegment = p.code
  dataSegment : program.dataSegment = p.data

theorem holds_generate (maxLines : Word) (draws : Draws) (hfits : ImageFits maxLines draws)
    (draw : Nat) : ∃ program, loadProgramFromElf (generate maxLines draws) draw = some program ∧
      Holds (GeneratedProgram.ofDraws maxLines draws hfits) program := by
  set p := GeneratedProgram.ofDraws maxLines draws hfits
  have hcode : p.code.length = p.codeSize := p.length_code
  have hdata : p.data.length = p.dataSize := p.length_data
  have hlt := (p.dataAddress_bounds 0).1.trans_lt (p.dataAddress_lt 0)
  have hemitted : Emitted (generate maxLines draws) (4 * p.code.length) (p.code ++ p.data) :=
    hcode ▸ ⟨generate_spells maxLines draws hfits, hlt⟩
  obtain ⟨program, hload, htext, haddr, hcs, hds, hcseg, hdseg⟩ :=
    loadProgramFromElf_emitted hemitted (by rw [hcode]; exact Nat.succ_pos _)
      (by rw [hcode, hdata]; exact p.fits) draw
  refine ⟨program, hload, htext, ?_, hcs.trans hcode, hds.trans hdata, hcseg, hdseg⟩
  rw [haddr, hcode, BitVec.toNat_ofNat]
  exact Nat.mod_eq_of_lt (hlt.trans (by decide))

/-- Loading the generated file gives the generated program. -/
theorem loadProgramFromElf_generate (maxLines : Word) (draws : Draws)
    (hfits : ImageFits maxLines draws) (draw : Nat) :
    ∃ program, loadProgramFromElf (generate maxLines draws) draw = some program ∧
      LoadsBack maxLines draws program := by
  set p := GeneratedProgram.ofDraws maxLines draws hfits
  obtain ⟨program, hload, h⟩ := holds_generate maxLines draws hfits draw
  refine ⟨program, hload, h.textAddress, ?_, h.codeSize, ?_, ?_, ?_, ?_⟩
  · rw [h.dataAddress, h.codeSize]
  · exact BitVec.eq_of_toNat_eq h.dataSize
  · rw [h.dataAddress, h.codeSegment, h.dataSegment]
    exact generate_spells maxLines draws hfits
  · rw [h.codeSegment]
    exact List.getLast?_concat
  · rw [h.codeSegment, h.dataAddress, h.dataSize]
    exact p.accesses

/-- The shortest file: one block, and four words of data. -/
theorem loadProgramFromElf_generate_shortest :
    ∃ program, loadProgramFromElf (generate 1 fun _ => 0) 0 = some program ∧
      LoadsBack 1 (fun _ => 0) program :=
  loadProgramFromElf_generate 1 (fun _ => 0) (by decide +kernel) 0

end LocOS
