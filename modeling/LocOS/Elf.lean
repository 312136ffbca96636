import LocOS.Lib.Text
import LocOS.Loader

/-!
# Elf

Programs read from a file (`sys/loader.c`, first half): a pass over the lines
that finds the two addresses and counts the words, and a pass that reads the
words. The file is given by its characters and holds no zero byte; `malloc`
succeeds, and what it leaves uninitialised reads as zero. The name of the
program is only printed.
-/

namespace LocOS

/-- `sizeof(line) - 1` for the loader's `char line[512]`. -/
abbrev lineCapacity : Nat := 511

/-- A `%x` conversion into a `uint32_t`. What does not fit is undefined in
ISO C and wraps here; glibc first saturates what is beyond 64 bits. -/
def scanWord (text : List Char) : Option Word := (Text.scanHex text).map (BitVec.ofInt 32)

/-- `strncmp(line, directive, 5) == 0`. -/
def isDirective (directive line : List Char) : Bool := line.take 5 = directive

/-- What the code starts behind. -/
def textDirective : List Char := ['.', 't', 'e', 'x', 't']

/-- What the data start behind. -/
def dataDirective : List Char := ['.', 'd', 'a', 't', 'a']

/-! ## The first pass -/

/-- The header addresses are written together with the local ones. -/
structure FirstPass where
  textAddr : Word
  dataAddr : Word
  foundText : Bool
  foundData : Bool
  totalWords : Word
  deriving DecidableEq, Repr

/-- The variables of `load_program_from_elf` before it reads a line. -/
def FirstPass.start : FirstPass where
  textAddr := 0
  dataAddr := 0
  foundText := false
  foundData := false
  totalWords := 0

/-- One line of the first pass: a directive sets an address, any other line that
holds a word behind `.text` counts. -/
def firstPassLine (st : FirstPass) (line : List Char) : FirstPass :=
  if isDirective textDirective line then
    -- the directive counts as found even when no address follows it
    { st with textAddr := (scanWord (line.drop 5)).getD st.textAddr, foundText := true }
  else if isDirective dataDirective line then
    { st with dataAddr := (scanWord (line.drop 5)).getD st.dataAddr, foundData := true }
  else if st.foundText ∧ line.head? ≠ some '.' ∧ line.head? ≠ some '\n' then
    if (scanWord line).isSome then { st with totalWords := st.totalWords + 1 } else st
  else st

/-! ## The second pass -/

/-- `full_program` up to `word_idx`. -/
structure SecondPass where
  fullProgram : List Word
  inSections : Bool
  deriving DecidableEq, Repr

/-- A word that does not fit `full_program` is dropped. -/
def secondPassLine (totalSize : Word) (st : SecondPass) (line : List Char) : SecondPass :=
  if line.head? = some '.' then { st with inSections := true }
  else if st.inSections ∧ line.head? ≠ some '\n' then
    match scanWord line with
    | some wordValue =>
        if st.fullProgram.length < totalSize.toNat then
          { st with fullProgram := st.fullProgram ++ [wordValue] }
        else st
    | none => st
  else st

/-! ## The program -/

/-- The estimated TTL: three ticks an instruction, between 10 and 100, the
product taken as an `int`. -/
def estimatedTtl (codeSize : Word) : Int :=
  let ttl := (codeSize * 3).toInt
  if ttl < 10 then 10 else if 100 < ttl then 100 else ttl

/-- `MIN_PRIORITY + (rand() % NUM_PRIORITY_LEVELS)`. -/
def drawnPriority (draw : Nat) : Int := minPriority + (draw % numPriorityLevels : Nat)

namespace FirstPass

/-- Everything is code unless `.data` stands at a higher address than `.text`. -/
def codeSize (first : FirstPass) : Word :=
  if first.foundData ∧ first.textAddr < first.dataAddr then
    (first.dataAddr - first.textAddr) / BitVec.ofNat 32 wordSize
  else first.totalWords

/-- Without a `.data` above `.text` there are no data. -/
def dataSize (first : FirstPass) : Word :=
  if first.foundData ∧ first.textAddr < first.dataAddr then first.totalWords - first.codeSize
  else 0

/-- The header, and the segments copied out of `full_program`; `draw` is what
`rand` returns for the priority. -/
def program (first : FirstPass) (fullProgram : List Word) (draw : Nat) : Program where
  textAddress := first.textAddr
  dataAddress := first.dataAddr
  codeSize := first.codeSize
  dataSize := first.dataSize
  priority := BitVec.ofInt 32 (drawnPriority draw)
  ttl := BitVec.ofInt 32 (estimatedTtl first.codeSize)
  codeSegment := (List.range first.codeSize.toNat).map fun i => fullProgram.getD i 0
  dataSegment := (List.range first.dataSize.toNat).map fun i =>
    fullProgram.getD (first.codeSize.toNat + i) 0
  codeLength := by simp
  dataLength := by simp

end FirstPass

/-- Both passes over the file; a file without `.text` is refused. -/
def loadProgramFromElf (file : List Char) (draw : Nat) : Option Program :=
  let first := (Text.lines lineCapacity file).foldl firstPassLine .start
  if first.foundText then
    let totalSize := first.codeSize + first.dataSize
    let second := (Text.lines lineCapacity file).foldl (secondPassLine totalSize) ⟨[], false⟩
    some (first.program second.fullProgram draw)
  else none

end LocOS
