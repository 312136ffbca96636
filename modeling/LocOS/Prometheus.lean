import LocOS.Lib.Text
import LocOS.Machine

/-!
# Prometheus

The program generator (`programs/prometheus/prometheus.c`): blocks of four
instructions that add two consecutive data words into the third, an exit, and
random data. What it prints is one address for each section and one word a
line.
-/

namespace LocOS

/-! ## Configuration (`programs/prometheus/defines.h`) -/

/-- Data are drawn from an interval of this length around zero. -/
abbrev datumValue : Nat := 400

/-- Where the code starts. -/
abbrev userLowestAddress : Word := 0

/-- `PAGE_SIZE_BITS`, the bits the address of the code start ends with zero in. -/
abbrev pageSizeBits : Nat := 8

/-- What `rand` will return, one value a call: a non-negative `int` each. -/
abbrev Draws := Nat → Fin (2 ^ 31)

/-- `rand()`, as the unsigned operand it becomes in each of its uses. -/
def rand (draws : Draws) : Word × Draws :=
  (BitVec.ofNat 32 (draws 0), fun i => draws (i + 1))

/-- The generator between two lines: what `rand` will return, and the file
written so far. -/
structure GeneratorState where
  draws : Draws
  file : List Char

/-- `fputs(line, fd)`. -/
def GeneratorState.put (g : GeneratorState) (line : List Char) : GeneratorState :=
  { g with file := g.file ++ line }

/-! ## The lines -/

/-- `"0%1X%06X\n"`. -/
def ldLine (reg : Word) (address : Word) : List Char :=
  '0' :: (Text.printHex 1 reg.toNat ++ Text.printHex 6 address.toNat ++ ['\n'])

/-- `"1%1X%06X\n"`. -/
def stLine (reg : Word) (address : Word) : List Char :=
  '1' :: (Text.printHex 1 reg.toNat ++ Text.printHex 6 address.toNat ++ ['\n'])

/-- `"2%1X%1X%1X0000\n"`. -/
def addLine (reg3 reg1 reg2 : Word) : List Char :=
  '2' :: (Text.printHex 1 reg3.toNat ++ Text.printHex 1 reg1.toNat ++
    Text.printHex 1 reg2.toNat ++ ['0', '0', '0', '0', '\n'])

/-- `"F0000000\n"`. -/
def exitLine : List Char := ['F', '0', '0', '0', '0', '0', '0', '0', '\n']

/-- `"%08X\n"`. -/
def dataLine (datum : Word) : List Char := Text.printHex 8 datum.toNat ++ ['\n']

/-- `".text %06X\n"`. -/
def textLine (codeStart : Word) : List Char :=
  ['.', 't', 'e', 'x', 't', ' '] ++ Text.printHex 6 codeStart.toNat ++ ['\n']

/-- `".data %06X\n"`. -/
def dataHeaderLine (dataStart : Word) : List Char :=
  ['.', 'd', 'a', 't', 'a', ' '] ++ Text.printHex 6 dataStart.toNat ++ ['\n']

/-! ## The generator -/

/-- `(((var_offset >> 2) + 1) % data_size) << 2`. -/
def nextOffset (dataSize varOffset : Word) : Word := (((varOffset >>> 2) + 1) % dataSize) <<< 2

/-- The body of the loop over blocks: ld, ld, add, st. -/
def putBlock (dataStart dataSize : Word) (g : GeneratorState) : GeneratorState :=
  let (r, draws) := rand g.draws
  let reg1 := r % 16
  let (r, draws) := rand draws
  let varOffset := (r % dataSize) <<< 2
  let g := { g with draws }
  let g := g.put (ldLine reg1 (dataStart + varOffset))
  -- the register and the variable behind the first
  let reg2 := (reg1 + 1) % 16
  let varOffset := nextOffset dataSize varOffset
  let g := g.put (ldLine reg2 (dataStart + varOffset))
  let reg3 := (reg1 + 2) % 16
  let g := g.put (addLine reg3 reg1 reg2)
  let varOffset := nextOffset dataSize varOffset
  g.put (stLine reg3 (dataStart + varOffset))

/-- `(rand() % VALUE) - (VALUE >> 1)`, stored unsigned. -/
def drawnDatum (r : Word) : Word :=
  r % BitVec.ofNat 32 datumValue - BitVec.ofNat 32 (datumValue / 2)

/-- The body of the loop over data words. -/
def putDatum (g : GeneratorState) : GeneratorState :=
  let (r, draws) := rand g.draws
  { g with draws }.put (dataLine (drawnDatum r))

/-- `code_size` and `data_size`: four lines at least. -/
def drawnSize (r maxLines : Word) : Word := 4 + r % maxLines

/-- `user_lowest & ~conf.offset_mask`. -/
def codeStart : Word := userLowestAddress &&& ~~~((1 <<< pageSizeBits) - 1 : Word)

/-- `(code_start + ((code_size >> 2) << 2) + 1) << 2`. -/
def dataStartOf (codeSize : Word) : Word := (codeStart + ((codeSize >>> 2) <<< 2) + 1) <<< 2

/-- One iteration of `main`'s loop over programs: the file it writes. -/
def generate (maxLines : Word) (draws : Draws) : List Char :=
  let (r, draws) := rand draws
  let codeSize := drawnSize r maxLines
  let dataStart := dataStartOf codeSize
  let (r, draws) := rand draws
  let dataSize := drawnSize r maxLines
  let g : GeneratorState := ⟨draws, []⟩
  let g := g.put (textLine codeStart)
  let g := g.put (dataHeaderLine dataStart)
  let g := Loop.up (fun _ => putBlock dataStart dataSize) (codeSize >>> 2).toNat g
  let g := g.put exitLine
  (Loop.up (fun _ => putDatum) dataSize.toNat g).file

end LocOS
